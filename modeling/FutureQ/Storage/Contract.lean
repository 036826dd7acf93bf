import FutureQ.Core.ByteOrder
import FutureQ.Core.GoRuntime
import FutureQ.Core.OrderedStore

/-!
# Storage engines

The broker writes through the `storage.DB` interface, which has a Pebble and a
bbolt implementation.  Both keep one flat, byte-ordered keyspace and both
collect the writes of a batch before a single atomic commit.  They differ in
the error that `Get` reports for an absent key and in the keys that a commit
accepts.  Failures of the environment are explicit: `Faults` says which batch
operation and which commit the disk refuses.
-/

namespace FutureQ.Storage

open FutureQ.ByteOrder
open FutureQ.GoRuntime
open FutureQ.OrderedStore

abbrev DB := Contents Bytes Bytes

abbrev Op := BatchOp Bytes Bytes

inductive Engine where
  | pebble
  | bolt
  deriving DecidableEq, Repr

/-- `errNotFound` is `storage.ErrNotFound`, `pebbleErrNotFound` is
`pebble.ErrNotFound`; `keyRequired` and `keyTooLarge` are what bbolt's `Put`
returns, and `io` is any failure of the medium. -/
inductive StorageError where
  | errNotFound
  | pebbleErrNotFound
  | keyRequired
  | keyTooLarge
  | io
  deriving DecidableEq, Repr

def Engine.notFound : Engine → StorageError
  | .pebble => .pebbleErrNotFound
  | .bolt => .errNotFound

def Engine.get (engine : Engine) (db : DB) (key : Bytes) :
    Except StorageError Bytes :=
  match db[key]? with
  | some value => .ok value
  | none => .error engine.notFound

/-- Pebble accepts every key; bbolt's `Put` wants between 1 and 32768 bytes. -/
def Engine.admits : Engine → Op → Except StorageError Unit
  | .bolt, .set key _ =>
      if key = [] then .error .keyRequired
      else if 32768 < key.length then .error .keyTooLarge
      else .ok ()
  | _, _ => .ok ()

/-- The failures the environment injects into one batch: the error, if any, of
its `n`-th operation and of its commit. -/
structure Faults where
  op : ℕ → Option StorageError
  commit : Option StorageError

def Faults.none : Faults := ⟨fun _ => .none, .none⟩

/-- Writes collected so far, and the number of operations attempted. -/
structure Batch where
  ops : List Op
  calls : ℕ
  deriving DecidableEq, Repr

def newBatch : Batch := ⟨[], 0⟩

/-- Operations on one batch; a failed operation leaves the batch usable. -/
abbrev BatchM (ε : Type) := ExceptT ε (StateM Batch)

def Batch.push (batch : Batch) (ops : List Op) : Batch :=
  ⟨batch.ops ++ ops, batch.calls + ops.length⟩

def attempt (faults : Faults) (op : Op) : BatchM StorageError Unit :=
  fun batch =>
    match faults.op batch.calls with
    | some err => (.error err, { batch with calls := batch.calls + 1 })
    | none => (.ok (), batch.push [op])

def set (faults : Faults) (key value : Bytes) : BatchM StorageError Unit :=
  attempt faults (.set key value)

def delete (faults : Faults) (key : Bytes) : BatchM StorageError Unit :=
  attempt faults (.delete key)

/-- `Batch.Commit`: all writes or none. -/
def Engine.commit (engine : Engine) (faults : Faults) (db : DB) (batch : Batch) :
    Except StorageError DB :=
  match faults.commit with
  | some err => .error err
  | none => do
      batch.ops.forM engine.admits
      return OrderedStore.commit db batch.ops

/-- `Scan` between two bounds: the pairs of one point in time, in key order. -/
def scan (db : DB) (lower upper : Bytes) : List (Bytes × Bytes) :=
  db.toList.filter fun entry =>
    (compare lower entry.1).isLE && compare entry.1 upper == .lt

@[simp]
theorem push_nil (batch : Batch) : batch.push [] = batch := by
  simp [Batch.push]

theorem push_push (batch : Batch) (first second : List Op) :
    (batch.push first).push second = batch.push (first ++ second) := by
  simp [Batch.push, Nat.add_assoc]

@[simp]
theorem attempt_none (op : Op) (batch : Batch) :
    attempt .none op batch = (.ok (), batch.push [op]) := rfl

@[simp]
theorem set_none (key value : Bytes) (batch : Batch) :
    set .none key value batch = (.ok (), batch.push [.set key value]) := rfl

@[simp]
theorem delete_none (key : Bytes) (batch : Batch) :
    delete .none key batch = (.ok (), batch.push [.delete key]) := rfl

/-- A sequence of batch operations runs the second on what the first left. -/
theorem batchM_bind_ok {ε α β : Type} {first : BatchM ε α}
    {next : α → BatchM ε β} {batch middle : Batch} {value : α}
    (hfirst : first batch = (.ok value, middle)) :
    (first >>= next) batch = next value middle := by
  change (ExceptT.bind first next) batch = _
  simp only [ExceptT.bind, ExceptT.mk, bind, StateT.bind, hfirst]
  rfl

theorem attempt_eq_ok_iff {faults : Faults} {op : Op} {batch final : Batch} :
    attempt faults op batch = (.ok (), final) ↔
      faults.op batch.calls = none ∧ final = batch.push [op] := by
  rw [attempt]
  cases hfault : faults.op batch.calls with
  | some err =>
      constructor
      · intro heq
        cases heq
      · rintro ⟨hnone, -⟩
        cases hnone
  | none =>
      constructor
      · intro heq
        cases heq
        exact ⟨rfl, rfl⟩
      · rintro ⟨-, rfl⟩
        rfl

theorem set_eq_ok_iff {faults : Faults} {key value : Bytes}
    {batch final : Batch} :
    set faults key value batch = (.ok (), final) ↔
      faults.op batch.calls = none ∧ final = batch.push [.set key value] :=
  attempt_eq_ok_iff

theorem delete_eq_ok_iff {faults : Faults} {key : Bytes} {batch final : Batch} :
    delete faults key batch = (.ok (), final) ↔
      faults.op batch.calls = none ∧ final = batch.push [.delete key] :=
  attempt_eq_ok_iff

theorem batchM_bind_error {ε α β : Type} {first : BatchM ε α}
    {next : α → BatchM ε β} {batch middle : Batch} {err : ε}
    (hfirst : first batch = (.error err, middle)) :
    (first >>= next) batch = (.error err, middle) := by
  change (ExceptT.bind first next) batch = _
  simp only [ExceptT.bind, ExceptT.mk, bind, StateT.bind, hfirst]
  rfl

/-- A sequence of batch operations succeeds when both halves do. -/
theorem batchM_bind_eq_ok_iff {ε α β : Type} {first : BatchM ε α}
    {next : α → BatchM ε β} {batch final : Batch} {value : β} :
    (first >>= next) batch = (.ok value, final) ↔
      ∃ result middle, first batch = (.ok result, middle) ∧
        next result middle = (.ok value, final) := by
  constructor
  · intro hboth
    rcases hfirst : first batch with ⟨err | result, middle⟩
    · rw [batchM_bind_error hfirst] at hboth
      cases hboth
    · rw [batchM_bind_ok hfirst] at hboth
      exact ⟨result, middle, rfl, hboth⟩
  · rintro ⟨result, middle, hfirst, hnext⟩
    rw [batchM_bind_ok hfirst]
    exact hnext

theorem forM_admits_pebble (ops : List Op) :
    ops.forM Engine.pebble.admits = Except.ok () := by
  induction ops with
  | nil => rfl
  | cons op ops ih =>
      change (Engine.pebble.admits op >>= fun _ => ops.forM Engine.pebble.admits) = _
      rw [ih]
      rfl

@[simp]
theorem commit_pebble (db : DB) (batch : Batch) :
    Engine.pebble.commit .none db batch =
      .ok (OrderedStore.commit db batch.ops) := by
  simp only [Engine.commit, Faults.none, forM_admits_pebble]
  rfl

/-- A commit succeeds exactly when the disk does and the engine takes every
write. -/
theorem commit_eq_ok_iff {engine : Engine} {faults : Faults} {db final : DB}
    {batch : Batch} :
    engine.commit faults db batch = .ok final ↔
      faults.commit = none ∧ (∀ op ∈ batch.ops, engine.admits op = .ok ()) ∧
        final = OrderedStore.commit db batch.ops := by
  rw [Engine.commit]
  cases faults.commit with
  | some err => simp
  | none =>
      simp only [bind_eq_ok_iff, true_and, ← forM_eq_ok_iff]
      constructor
      · rintro ⟨_, hadmits, hfinal⟩
        exact ⟨hadmits, (Except.ok.inj hfinal).symm⟩
      · rintro ⟨hadmits, rfl⟩
        exact ⟨(), hadmits, rfl⟩

theorem commit_eq_ok {engine : Engine} {faults : Faults} {db final : DB}
    {batch : Batch} (hcommit : engine.commit faults db batch = .ok final) :
    final = OrderedStore.commit db batch.ops :=
  (commit_eq_ok_iff.mp hcommit).2.2

theorem forM_admits_append {engine : Engine} {op : Op}
    (hadmits : engine.admits op = .ok ()) (ops : List Op) :
    (ops ++ [op]).forM engine.admits = ops.forM engine.admits := by
  induction ops with
  | nil =>
      change (engine.admits op >>= fun _ => pure ()) = pure ()
      rw [hadmits]
      rfl
  | cons head ops ih =>
      change (engine.admits head >>= fun _ => (ops ++ [op]).forM engine.admits) =
        (engine.admits head >>= fun _ => ops.forM engine.admits)
      rw [ih]

/-- A write that the engine accepts may be added to a batch. -/
theorem commit_push {engine : Engine} {op : Op}
    (hadmits : engine.admits op = .ok ()) (db : DB) (batch : Batch) :
    engine.commit .none db (batch.push [op]) =
      (engine.commit .none db batch).map op.apply := by
  simp only [Engine.commit, Faults.none, Batch.push, forM_admits_append hadmits]
  cases batch.ops.forM engine.admits with
  | error err => rfl
  | ok _ =>
      change Except.ok (OrderedStore.commit db (batch.ops ++ [op])) = _
      rw [commit_append]
      rfl

theorem get_of_some {engine : Engine} {db : DB} {key value : Bytes}
    (hvalue : db[key]? = some value) : engine.get db key = .ok value := by
  simp [Engine.get, hvalue]

theorem get_pebble_of_none {db : DB} {key : Bytes} (habsent : db[key]? = none) :
    Engine.pebble.get db key = .error .pebbleErrNotFound := by
  simp [Engine.get, Engine.notFound, habsent]

theorem mem_scan_iff {db : DB} {lower upper key value : Bytes} :
    (key, value) ∈ scan db lower upper ↔ db[key]? = some value ∧
      (compare lower key).isLE ∧ compare key upper = .lt := by
  rw [scan, List.mem_filter, Std.ExtTreeMap.mem_toList_iff_getElem?_eq_some]
  simp

/-- A scan visits its keys in increasing order. -/
theorem pairwise_scan (db : DB) (lower upper : Bytes) :
    (scan db lower upper).Pairwise fun first second =>
      compare first.1 second.1 = .lt :=
  db.ordered_keys_toList.filter _

/-! ## What a batch collects -/

section Collected

variable {ε α β : Type} {allowed : Op → Prop}

def Batch.Holds (allowed : Op → Prop) (batch : Batch) : Prop :=
  ∀ op ∈ batch.ops, allowed op

/-- The operation adds allowed writes only, whether it succeeds or fails. -/
def Keeps (allowed : Op → Prop) (operation : BatchM ε α) : Prop :=
  ∀ batch : Batch, batch.Holds allowed → (operation batch).2.Holds allowed

theorem holds_newBatch : newBatch.Holds allowed := by
  simp [Batch.Holds, newBatch]

theorem Batch.Holds.push {batch : Batch} (hholds : batch.Holds allowed)
    {ops : List Op} (hops : ∀ op ∈ ops, allowed op) :
    (batch.push ops).Holds allowed := by
  intro op hop
  rcases List.mem_append.mp hop with hbefore | hpushed
  · exact hholds op hbefore
  · exact hops op hpushed

theorem keeps_attempt (faults : Faults) {op : Op} (hop : allowed op) :
    Keeps allowed (attempt faults op) := by
  intro batch hholds
  rw [attempt]
  split
  · exact hholds
  · exact hholds.push (by simpa using hop)

theorem Keeps.bind {first : BatchM ε α} {next : α → BatchM ε β}
    (hfirst : Keeps allowed first) (hnext : ∀ value, Keeps allowed (next value)) :
    Keeps allowed (first >>= next) := by
  intro batch hholds
  have hmiddle := hfirst batch hholds
  rcases hcall : first batch with ⟨err | value, middle⟩
  · rw [hcall] at hmiddle
    rw [batchM_bind_error hcall]
    exact hmiddle
  · rw [hcall] at hmiddle
    rw [batchM_bind_ok hcall]
    exact hnext value middle hmiddle

theorem keeps_pure (value : α) : Keeps allowed (pure value : BatchM ε α) :=
  fun _ hholds => hholds

theorem keeps_forM {values : List α} {operation : α → BatchM ε Unit}
    (hkeeps : ∀ value ∈ values, Keeps allowed (operation value)) :
    Keeps allowed (values.forM operation) := by
  induction values with
  | nil => exact keeps_pure ()
  | cons value values ih =>
      obtain ⟨hvalue, hvalues⟩ := List.forall_mem_cons.mp hkeeps
      exact hvalue.bind fun _ => ih hvalues

end Collected

end FutureQ.Storage
