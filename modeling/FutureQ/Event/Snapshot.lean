import FutureQ.Event.StateMachine

/-!
# Snapshots of the event state machine

`SaveSnapshot` streams every record of the database as two length-prefixed
byte strings; `RecoverFromSnapshot` empties the target database and plays the
stream back.  The scan reads a point-in-time view of the database, the reader
can end early or fail, the writer can refuse a write, and the stop channel is
polled once per record.
-/

namespace FutureQ.Snapshot

open FutureQ.ByteOrder
open FutureQ.GoRuntime
open FutureQ.OrderedStore
open FutureQ.Storage
open FutureQ.Repository
open FutureQ.StateMachine

/-- `stopped` is `statemachine.ErrSnapshotStopped`, `eof` and `unexpectedEOF`
are those of `io`; `reader` and `writer` are failures of the stream. -/
inductive SnapshotError where
  | storage (err : StorageError)
  | stopped
  | eof
  | unexpectedEOF
  | reader
  | writer
  deriving DecidableEq, Repr

/-- The stop channel: closed from the given poll on, if at all. -/
abbrev Stop := Option ℕ

def Stop.fired (stop : Stop) (poll : ℕ) : Bool :=
  match stop with
  | none => false
  | some closed => decide (closed ≤ poll)

/-! ## Saving -/

/-- The bytes written so far and the number of calls of `Write`. -/
structure Sink where
  written : Bytes
  calls : ℕ
  deriving DecidableEq, Repr

/-- `w.Write`; `refuses` says which call fails. -/
def write (refuses : ℕ → Bool) (sink : Sink) (data : Bytes) :
    Except SnapshotError Sink :=
  if refuses sink.calls then .error .writer
  else .ok ⟨sink.written ++ data, sink.calls + 1⟩

/-- `binary.Write` of `uint32(len(field))`. -/
def lengthField (field : Bytes) : Bytes :=
  encodeLE 4 (UInt32.ofNat field.length).toNat

/-- The body of the function that `SaveSnapshot` passes to `Scan`; `poll`
counts the records. -/
def saveRecord (stop : Stop) (refuses : ℕ → Bool) (state : Sink × ℕ)
    (entry : Bytes × Bytes) : Except SnapshotError (Sink × ℕ) := do
  let (sink, poll) := state
  if stop.fired poll then throw .stopped
  let sink ← write refuses sink (lengthField entry.1)
  let sink ← write refuses sink entry.1
  let sink ← write refuses sink (lengthField entry.2)
  let sink ← write refuses sink entry.2
  return (sink, poll + 1)

def prepareSnapshot (sm : EventStateMachine) : UInt64 := sm.lastApplied

/-- `SaveSnapshot` over the database that its scan reads.  The value of
`PrepareSnapshot` is not used. -/
def saveSnapshot (stop : Stop) (refuses : ℕ → Bool) (_ctx : UInt64) (db : DB) :
    Except SnapshotError Bytes := do
  let (sink, _) ← db.toList.foldlM (saveRecord stop refuses) (⟨[], 0⟩, 0)
  return sink.written

/-! ## Recovering -/

/-- A stream that ends, or fails, after its data. -/
structure Source where
  data : Bytes
  fails : Bool
  deriving DecidableEq, Repr

/-- `io.ReadFull` of `count` bytes. -/
def readFull (count : ℕ) (source : Source) :
    Except SnapshotError (Bytes × Source) :=
  if count ≤ source.data.length then
    .ok (source.data.take count, { source with data := source.data.drop count })
  else if source.fails then .error .reader
  else if source.data = [] then .error .eof
  else .error .unexpectedEOF

/-- A length-prefixed byte string. -/
def readField (source : Source) : Except SnapshotError (Bytes × Source) := do
  let (length, source) ← readFull 4 source
  readFull (decodeLE length) source

/-- One round of the loop of `RecoverFromSnapshot`; a stream that ends before
the length of a key is complete. -/
def readRecord (source : Source) :
    Except SnapshotError (Option ((Bytes × Bytes) × Source)) :=
  match readFull 4 source with
  | .error .eof => .ok none
  | .error err => .error err
  | .ok (klen, source) => do
      let (key, source) ← readFull (decodeLE klen) source
      let (value, source) ← readField source
      return some ((key, value), source)

/-- The loop of `RecoverFromSnapshot`.  Every round takes at least the four
bytes of a length, so `fuel` is never used up when it exceeds the length of the
stream. -/
def recoverLoop (stop : Stop) (faults : Faults) :
    ℕ → ℕ → Source → Batch → Except SnapshotError Batch
  | 0, _, _, _ => .error .unexpectedEOF
  | fuel + 1, poll, source, batch =>
      if stop.fired poll then .error .stopped
      else
        match readRecord source with
        | .error err => .error err
        | .ok none => .ok batch
        | .ok (some ((key, value), source)) =>
            match set faults key value batch with
            | (.error err, _) => .error (.storage err)
            | (.ok (), batch) => recoverLoop stop faults fuel (poll + 1) source batch

/-- The loop of `clearDB` over the keys of its iterator. -/
def clearLoop (stop : Stop) (faults : Faults) :
    ℕ → List Bytes → Batch → Except SnapshotError Batch
  | _, [], batch => .ok batch
  | poll, key :: keys, batch =>
      if stop.fired poll then .error .stopped
      else
        match delete faults key batch with
        | (.error err, _) => .error (.storage err)
        | (.ok (), batch) => clearLoop stop faults (poll + 1) keys batch

def commitBatch (engine : Engine) (faults : Faults) (db : DB) (batch : Batch) :
    Except SnapshotError DB :=
  (engine.commit faults db batch).mapError .storage

def clearDB (engine : Engine) (stop : Stop) (faults : Faults) (db : DB) :
    Except SnapshotError DB := do
  let batch ← clearLoop stop faults 0 db.keys newBatch
  commitBatch engine faults db batch

/-- The part of `RecoverFromSnapshot` after `clearDB`: the database with the
records of the stream. -/
def restoreDB (engine : Engine) (stop : Stop) (faults : Faults) (poll : ℕ)
    (db : DB) (source : Source) : Except SnapshotError DB := do
  let batch ← recoverLoop stop faults (source.data.length + 1) poll source newBatch
  commitBatch engine faults db batch

/-- The applied index is read back from the restored database and keeps its
old value when there is no record. -/
def reloadApplied (engine : Engine) (sm : EventStateMachine) :
    GoResult SnapshotError UInt64 :=
  match engine.get sm.db appliedIndexKey with
  | .ok value => bigEndianUint64 value
  | .error err =>
      if err = .pebbleErrNotFound then .ok sm.lastApplied
      else .error (.error (.storage err))

/-- `RecoverFromSnapshot`: the replica after the call and how the call ended.
`clearing` are the failures of the batch of `clearDB`. -/
def recoverFromSnapshot (engine : Engine) (stop : Stop) (clearing faults : Faults)
    (sm : EventStateMachine) (source : Source) :
    EventStateMachine × GoResult SnapshotError Unit :=
  match clearDB engine stop clearing sm.db with
  | .error err => (sm, .error (.error err))
  | .ok cleared =>
      let poll := sm.db.keys.length
      let sm := { sm with db := cleared }
      match restoreDB engine stop faults poll sm.db source with
      | .error err => (sm, .error (.error err))
      | .ok db =>
          let sm := { sm with db }
          match reloadApplied engine sm with
          | .error fault => (sm, .error fault)
          | .ok lastApplied => ({ sm with lastApplied }, .ok ())

/-! ## Records -/

/-- One record of the stream. -/
def record (entry : Bytes × Bytes) : Bytes :=
  lengthField entry.1 ++ entry.1 ++ (lengthField entry.2 ++ entry.2)

/-- The lengths of a record fit their fields. -/
def FitsRecord (entry : Bytes × Bytes) : Prop :=
  entry.1.length < 2 ^ 32 ∧ entry.2.length < 2 ^ 32

def sets (entries : List (Bytes × Bytes)) : List Op :=
  entries.map fun entry => .set entry.1 entry.2

/-- The contents that a sequence of records describes; a later record of a key
replaces an earlier one. -/
def contents (entries : List (Bytes × Bytes)) : DB := commit ∅ (sets entries)

/-- The whole stream of a database. -/
def serialise (db : DB) : Bytes := db.toList.flatMap record

/-- Every length fits its field. -/
def Bounded (db : DB) : Prop :=
  ∀ key value : Bytes, db[key]? = some value →
    key.length < 2 ^ 32 ∧ value.length < 2 ^ 32

theorem saveRecord_none (sink : Sink) (poll : ℕ) (entry : Bytes × Bytes) :
    saveRecord none (fun _ => false) (sink, poll) entry =
      .ok (⟨sink.written ++ record entry, sink.calls + 4⟩, poll + 1) := by
  simp [saveRecord, Stop.fired, write, record, bind, Except.bind, pure, Except.pure]

theorem foldlM_saveRecord (entries : List (Bytes × Bytes)) (sink : Sink)
    (poll : ℕ) :
    entries.foldlM (saveRecord none fun _ => false) (sink, poll) =
      .ok (⟨sink.written ++ entries.flatMap record,
        sink.calls + 4 * entries.length⟩, poll + entries.length) := by
  induction entries generalizing sink poll with
  | nil => simp [pure, Except.pure]
  | cons entry entries ih =>
      rw [List.foldlM_cons, saveRecord_none]
      change entries.foldlM _ _ = _
      have hcalls : sink.calls + 4 + 4 * entries.length =
          sink.calls + 4 * (entries.length + 1) := by ring
      have hpoll : poll + 1 + entries.length = poll + (entries.length + 1) := by
        ring
      rw [ih]
      simp only [List.flatMap_cons, List.append_assoc, List.length_cons, hcalls,
        hpoll]

/-- Unless it is stopped or its writer fails, `SaveSnapshot` writes the records
of the database it scans. -/
theorem saveSnapshot_eq (ctx : UInt64) (db : DB) :
    saveSnapshot none (fun _ => false) ctx db = .ok (serialise db) := by
  rw [saveSnapshot, foldlM_saveRecord]
  rfl

theorem readFull_append {field rest : Bytes} {fails : Bool} {count : ℕ}
    (hcount : count = field.length) :
    readFull count ⟨field ++ rest, fails⟩ = .ok (field, ⟨rest, fails⟩) := by
  subst hcount
  rw [readFull, if_pos (by simp)]
  simp

theorem length_lengthField (field : Bytes) : (lengthField field).length = 4 := by
  simp [lengthField]

theorem decodeLE_lengthField {field : Bytes} (hfield : field.length < 2 ^ 32) :
    decodeLE (lengthField field) = field.length := by
  rw [lengthField, decodeLE_encodeLE_of_lt]
  · simpa using Nat.mod_eq_of_lt hfield
  · exact UInt32.toNat_lt _

/-! ## Reading one record -/

theorem readFull_eq_ok_iff {count : ℕ} {source next : Source} {bytes : Bytes} :
    readFull count source = .ok (bytes, next) ↔
      bytes.length = count ∧ source = ⟨bytes ++ next.data, next.fails⟩ := by
  constructor
  · intro hread
    rw [readFull] at hread
    split at hread
    · rename_i hcount
      cases hread
      exact ⟨by simpa using hcount, by simp⟩
    · split at hread
      · cases hread
      · split at hread <;> cases hread
  · rintro ⟨rfl, rfl⟩
    exact readFull_append rfl

theorem readFull_eq_eof_iff {count : ℕ} (hcount : 0 < count) {source : Source} :
    readFull count source = .error .eof ↔ source = ⟨[], false⟩ := by
  obtain ⟨data, fails⟩ := source
  constructor
  · intro hread
    rw [readFull] at hread
    split at hread
    · cases hread
    · cases fails with
      | true => cases hread
      | false =>
          rw [if_neg Bool.false_ne_true] at hread
          split at hread
          · rename_i hempty
            rw [show data = [] from hempty]
          · cases hread
  · intro hsource
    cases hsource
    simp [readFull, hcount.ne']

/-- Four bytes that announce the length of a field are its length field. -/
theorem eq_lengthField {length field : Bytes} (hlength : length.length = 4)
    (hfield : field.length = decodeLE length) :
    length = lengthField field ∧ field.length < 2 ^ 32 := by
  have hbound : field.length < 2 ^ 32 := by
    have hlt := decodeLE_lt length
    rw [hlength] at hlt
    rw [hfield]
    exact lt_of_lt_of_eq hlt (by norm_num)
  refine ⟨?_, hbound⟩
  have hround := encodeLE_decodeLE length
  rw [hlength, ← hfield] at hround
  rw [lengthField, UInt32.toNat_ofNat_of_lt' hbound, hround]

theorem readField_eq_ok_iff {source next : Source} {field : Bytes} :
    readField source = .ok (field, next) ↔
      field.length < 2 ^ 32 ∧
        source = ⟨lengthField field ++ field ++ next.data, next.fails⟩ := by
  simp only [readField, bind_eq_ok_iff, Prod.exists, readFull_eq_ok_iff]
  constructor
  · rintro ⟨length, middle, ⟨hlength, rfl⟩, hfield, rfl⟩
    obtain ⟨rfl, hbound⟩ := eq_lengthField hlength hfield
    exact ⟨hbound, by simp⟩
  · rintro ⟨hbound, rfl⟩
    exact ⟨lengthField field, ⟨field ++ next.data, next.fails⟩,
      ⟨length_lengthField field, by simp⟩, (decodeLE_lengthField hbound).symm, rfl⟩

theorem readRecord_eq_none_iff {source : Source} :
    readRecord source = .ok none ↔ source = ⟨[], false⟩ := by
  constructor
  · intro hread
    rw [readRecord] at hread
    split at hread
    · rename_i heof
      exact (readFull_eq_eof_iff (by omega)).mp heof
    · cases hread
    · obtain ⟨_, -, hrest⟩ := bind_eq_ok_iff.mp hread
      obtain ⟨_, -, hsome⟩ := bind_eq_ok_iff.mp hrest
      cases hsome
  · rintro rfl
    simp [readRecord, readFull]

/-- A round that does not end the loop has read one complete record. -/
theorem readRecord_eq_some_iff {source next : Source} {entry : Bytes × Bytes} :
    readRecord source = .ok (some (entry, next)) ↔
      FitsRecord entry ∧ source = ⟨record entry ++ next.data, next.fails⟩ := by
  constructor
  · intro hread
    rw [readRecord] at hread
    split at hread
    · cases hread
    · cases hread
    · rename_i klen middle hlength
      obtain ⟨⟨key, afterKey⟩, hkey, hrest⟩ := bind_eq_ok_iff.mp hread
      obtain ⟨⟨value, last⟩, hvalue, hpair⟩ := bind_eq_ok_iff.mp hrest
      cases hpair
      obtain ⟨hwidth, rfl⟩ := readFull_eq_ok_iff.mp hlength
      obtain ⟨hklen, rfl⟩ := readFull_eq_ok_iff.mp hkey
      obtain ⟨hvalueBound, rfl⟩ := readField_eq_ok_iff.mp hvalue
      obtain ⟨rfl, hkeyBound⟩ := eq_lengthField hwidth hklen
      exact ⟨⟨hkeyBound, hvalueBound⟩, by simp [record]⟩
  · rintro ⟨⟨hkey, hvalue⟩, rfl⟩
    have hlength : readFull 4 ⟨record entry ++ next.data, next.fails⟩ =
        .ok (lengthField entry.1, ⟨entry.1 ++
          (lengthField entry.2 ++ entry.2 ++ next.data), next.fails⟩) :=
      readFull_eq_ok_iff.mpr ⟨length_lengthField _, by simp [record]⟩
    rw [readRecord, hlength]
    simp only
    rw [readFull_append (decodeLE_lengthField hkey), ok_bind,
      readField_eq_ok_iff.mpr ⟨hvalue, rfl⟩, ok_bind]
    rfl

/-! ## Reading the stream -/

/-- The stream consists of these records, and neither the stop channel nor the
disk interrupts their replay. -/
structure Arrives (stop : Stop) (faults : Faults) (poll calls : ℕ)
    (source : Source) (entries : List (Bytes × Bytes)) : Prop where
  healthy : source.fails = false
  fits : ∀ entry ∈ entries, FitsRecord entry
  complete : source.data = entries.flatMap record
  running : ∀ i ≤ entries.length, stop.fired (poll + i) = false
  accepted : ∀ i < entries.length, faults.op (calls + i) = none

section Arrives

variable {stop : Stop} {faults : Faults} {poll calls : ℕ}

theorem arrives_nil_iff {source : Source} :
    Arrives stop faults poll calls source [] ↔
      source = ⟨[], false⟩ ∧ stop.fired poll = false := by
  obtain ⟨data, fails⟩ := source
  constructor
  · intro harrives
    obtain rfl : fails = false := harrives.healthy
    obtain rfl : data = [] := harrives.complete
    exact ⟨rfl, harrives.running 0 le_rfl⟩
  · rintro ⟨⟨⟩, hopen⟩
    refine ⟨rfl, by simp, rfl, fun i hi => ?_, by simp⟩
    obtain rfl : i = 0 := by simpa using hi
    exact hopen

theorem arrives_cons_iff {source : Source} {entry : Bytes × Bytes}
    {entries : List (Bytes × Bytes)} :
    Arrives stop faults poll calls source (entry :: entries) ↔
      FitsRecord entry ∧ stop.fired poll = false ∧ faults.op calls = none ∧
        ∃ rest, source = ⟨record entry ++ rest, source.fails⟩ ∧
          Arrives stop faults (poll + 1) (calls + 1) ⟨rest, source.fails⟩ entries := by
  obtain ⟨data, fails⟩ := source
  constructor
  · intro harrives
    obtain ⟨hfits, hrest⟩ := List.forall_mem_cons.mp harrives.fits
    obtain rfl : data = record entry ++ entries.flatMap record := harrives.complete
    refine ⟨hfits, harrives.running 0 (Nat.zero_le _), harrives.accepted 0 (by simp),
      _, rfl, harrives.healthy, hrest, rfl, fun i hi => ?_, fun i hi => ?_⟩
    · rw [Nat.add_right_comm]
      exact harrives.running (i + 1) (by simpa using hi)
    · rw [Nat.add_right_comm]
      exact harrives.accepted (i + 1) (by simpa using hi)
  · rintro ⟨hfits, hopen, hop, rest, hdata, harrives⟩
    obtain rfl : data = record entry ++ rest := congrArg Source.data hdata
    obtain rfl : rest = entries.flatMap record := harrives.complete
    refine ⟨harrives.healthy, List.forall_mem_cons.mpr ⟨hfits, harrives.fits⟩, rfl, ?_, ?_⟩
    · rintro (_ | i) hi
      · exact hopen
      · have hlater := harrives.running i (by simpa using hi)
        rwa [Nat.add_right_comm] at hlater
    · rintro (_ | i) hi
      · exact hop
      · have hlater := harrives.accepted i (by simpa using hi)
        rwa [Nat.add_right_comm] at hlater

/-- The loop ends with a batch exactly when the stream arrives as a whole. -/
theorem recoverLoop_eq_ok_iff {fuel : ℕ} {source : Source} {batch filled : Batch}
    (hfuel : source.data.length < fuel) :
    recoverLoop stop faults fuel poll source batch = .ok filled ↔
      ∃ entries, Arrives stop faults poll batch.calls source entries ∧
        filled = batch.push (sets entries) := by
  induction fuel generalizing poll source batch with
  | zero => exact absurd hfuel (Nat.not_lt_zero _)
  | succ fuel ih =>
      have hshorter : ∀ {entry next}, source = ⟨record entry ++ next, source.fails⟩ →
          next.length < fuel := by
        intro entry next hsource
        rw [hsource] at hfuel
        simp only [List.length_append, record, length_lengthField] at hfuel
        omega
      rw [recoverLoop]
      constructor
      · intro hloop
        split at hloop
        · cases hloop
        rename_i hfired
        have hopen : stop.fired poll = false := Bool.eq_false_of_not_eq_true hfired
        split at hloop
        · cases hloop
        · rename_i hend
          cases hloop
          exact ⟨[], arrives_nil_iff.mpr ⟨readRecord_eq_none_iff.mp hend, hopen⟩,
            by simp [sets]⟩
        · rename_i key value next hread
          obtain ⟨hfits, hsource⟩ := readRecord_eq_some_iff.mp hread
          have hfails : source.fails = next.fails := by rw [hsource]
          rw [← hfails] at hsource
          split at hloop
          · cases hloop
          · rename_i filled' hset
            obtain ⟨hop, rfl⟩ := set_eq_ok_iff.mp hset
            obtain ⟨entries, harrives, rfl⟩ := (ih (hshorter hsource)).mp hloop
            refine ⟨(key, value) :: entries, arrives_cons_iff.mpr
              ⟨hfits, hopen, hop, next.data, hsource, ?_⟩, by rw [push_push]; rfl⟩
            rw [hfails]
            exact harrives
      · rintro ⟨entries, harrives, rfl⟩
        cases entries with
        | nil =>
            obtain ⟨rfl, hopen⟩ := arrives_nil_iff.mp harrives
            simp [hopen, readRecord_eq_none_iff.mpr rfl, sets]
        | cons entry entries =>
            obtain ⟨hfits, hopen, hop, rest, hsource, htail⟩ := arrives_cons_iff.mp harrives
            have hread : readRecord source = .ok (some (entry, ⟨rest, source.fails⟩)) :=
              readRecord_eq_some_iff.mpr ⟨hfits, hsource⟩
            have hset : set faults entry.1 entry.2 batch =
                (.ok (), batch.push [.set entry.1 entry.2]) :=
              set_eq_ok_iff.mpr ⟨hop, rfl⟩
            have hfuel := hshorter hsource
            rw [if_neg (by simp [hopen]), hread]
            simp only [hset]
            exact (ih hfuel).mpr ⟨entries, htail, by rw [push_push]; rfl⟩

end Arrives

/-! ## Emptying and refilling the database -/

theorem commitBatch_eq_ok_iff {engine : Engine} {faults : Faults} {db final : DB}
    {batch : Batch} :
    commitBatch engine faults db batch = .ok final ↔
      faults.commit = none ∧ (∀ op ∈ batch.ops, engine.admits op = .ok ()) ∧
        final = commit db batch.ops := by
  rw [commitBatch, mapError_eq_ok_iff, commit_eq_ok_iff]

theorem clearLoop_eq_ok_iff {stop : Stop} {faults : Faults} {poll : ℕ}
    {keys : List Bytes} {batch filled : Batch} :
    clearLoop stop faults poll keys batch = .ok filled ↔
      (∀ i < keys.length, stop.fired (poll + i) = false ∧
        faults.op (batch.calls + i) = none) ∧
      filled = batch.push (keys.map .delete) := by
  induction keys generalizing poll batch with
  | nil =>
      rw [clearLoop]
      constructor
      · intro hloop
        cases hloop
        exact ⟨by simp, by simp⟩
      · rintro ⟨-, rfl⟩
        simp
  | cons key keys ih =>
      rw [clearLoop]
      constructor
      · intro hloop
        split at hloop
        · cases hloop
        rename_i hfired
        split at hloop
        · cases hloop
        · rename_i middle hdelete
          obtain ⟨hop, rfl⟩ := delete_eq_ok_iff.mp hdelete
          obtain ⟨hlater, rfl⟩ := ih.mp hloop
          refine ⟨?_, by rw [push_push]; rfl⟩
          rintro (_ | i) hi
          · exact ⟨Bool.eq_false_of_not_eq_true hfired, hop⟩
          · have hnext := hlater i (by simpa using hi)
            rw [Nat.add_right_comm poll] at hnext
            simpa [Batch.push, Nat.add_right_comm, Nat.add_assoc, Nat.add_comm 1] using hnext
      · rintro ⟨hall, rfl⟩
        obtain ⟨hopen, hop⟩ := hall 0 (by simp)
        have hdelete : delete faults key batch =
            (.ok (), batch.push [.delete key]) := delete_eq_ok_iff.mpr ⟨hop, rfl⟩
        rw [if_neg (by simpa using hopen), hdelete]
        refine ih.mpr ⟨fun i hi => ?_, by rw [push_push]; rfl⟩
        have hnext := hall (i + 1) (by simpa using hi)
        simpa [Batch.push, Nat.add_assoc, Nat.add_comm 1] using hnext

/-- The wipe goes through: nothing stops it and the disk takes it. -/
structure Wipes (stop : Stop) (faults : Faults) (db : DB) : Prop where
  running : ∀ i < db.keys.length, stop.fired i = false
  accepted : ∀ i < db.keys.length, faults.op i = none
  committed : faults.commit = none

theorem clearDB_eq_ok_iff {engine : Engine} {stop : Stop} {faults : Faults}
    {db cleared : DB} :
    clearDB engine stop faults db = .ok cleared ↔
      Wipes stop faults db ∧ cleared = ∅ := by
  simp only [clearDB, bind_eq_ok_iff, clearLoop_eq_ok_iff, commitBatch_eq_ok_iff]
  have hdeletes : ∀ op ∈ db.keys.map (BatchOp.delete : Bytes → Op),
      engine.admits op = .ok () := by
    intro op hop
    obtain ⟨key, -, rfl⟩ := List.mem_map.mp hop
    cases engine <;> rfl
  constructor
  · rintro ⟨filled, ⟨hall, rfl⟩, hcommit, -, rfl⟩
    refine ⟨⟨fun i hi => ?_, fun i hi => ?_, hcommit⟩, ?_⟩
    · simpa using (hall i hi).1
    · simpa [newBatch] using (hall i hi).2
    · simpa [Batch.push, newBatch] using commit_delete_keys db
  · rintro ⟨hwipes, rfl⟩
    refine ⟨_, ⟨fun i hi => ⟨?_, ?_⟩, rfl⟩, hwipes.committed, ?_, ?_⟩
    · simpa using hwipes.running i hi
    · simpa [newBatch] using hwipes.accepted i hi
    · simpa [Batch.push, newBatch] using hdeletes
    · simpa [Batch.push, newBatch] using (commit_delete_keys db).symm

/-- The stream arrives and the engine takes its records. -/
structure Restores (engine : Engine) (stop : Stop) (faults : Faults) (poll : ℕ)
    (source : Source) (entries : List (Bytes × Bytes)) : Prop where
  arrives : Arrives stop faults poll 0 source entries
  admitted : ∀ op ∈ sets entries, engine.admits op = .ok ()
  committed : faults.commit = none

theorem restoreDB_eq_ok_iff {engine : Engine} {stop : Stop} {faults : Faults}
    {poll : ℕ} {source : Source} {final : DB} :
    restoreDB engine stop faults poll ∅ source = .ok final ↔
      ∃ entries, Restores engine stop faults poll source entries ∧
        final = contents entries := by
  simp only [restoreDB, bind_eq_ok_iff, commitBatch_eq_ok_iff,
    recoverLoop_eq_ok_iff (Nat.lt_succ_self source.data.length)]
  constructor
  · rintro ⟨_, ⟨entries, harrives, rfl⟩, hcommit, hadmits, rfl⟩
    refine ⟨entries, ⟨harrives, ?_, hcommit⟩, ?_⟩
    · simpa [Batch.push, newBatch] using hadmits
    · simp [Batch.push, newBatch, contents]
  · rintro ⟨entries, hrestores, rfl⟩
    refine ⟨_, ⟨entries, hrestores.arrives, rfl⟩, hrestores.committed, ?_, ?_⟩
    · simpa [Batch.push, newBatch] using hrestores.admitted
    · simp [Batch.push, newBatch, contents]

/-- The records of a stream are determined by the call. -/
theorem Restores.contents_eq {engine : Engine} {stop : Stop} {faults : Faults}
    {poll : ℕ} {source : Source} {left right : List (Bytes × Bytes)}
    (hleft : Restores engine stop faults poll source left)
    (hright : Restores engine stop faults poll source right) :
    contents left = contents right := by
  have hfirst := restoreDB_eq_ok_iff.mpr ⟨left, hleft, rfl⟩
  rw [restoreDB_eq_ok_iff.mpr ⟨right, hright, rfl⟩] at hfirst
  exact (Except.ok.inj hfirst).symm

theorem clearDB_none (db : DB) : clearDB .pebble none .none db = .ok ∅ :=
  clearDB_eq_ok_iff.mpr ⟨⟨fun _ _ => rfl, fun _ _ => rfl, rfl⟩, rfl⟩

/-! ## Round trip -/

theorem restoreDB_serialise {db : DB} (hbounded : Bounded db) (poll : ℕ) :
    restoreDB .pebble none .none poll ∅ ⟨serialise db, false⟩ = .ok db := by
  have hfits : ∀ entry ∈ db.toList, FitsRecord entry :=
    fun entry hentry => hbounded entry.1 entry.2
      (Std.ExtTreeMap.mem_toList_iff_getElem?_eq_some.mp hentry)
  refine restoreDB_eq_ok_iff.mpr ⟨db.toList, ⟨?_, fun op _ => ?_, rfl⟩, ?_⟩
  · exact ⟨rfl, hfits, rfl, fun _ _ => rfl, fun _ _ => rfl⟩
  · cases op <;> rfl
  · exact (commit_set_toList db).symm

/-- Recovery leaves exactly the saved contents, whatever was there before, and
takes the applied index from them; the ID counter keeps its old value. -/
theorem recoverFromSnapshot_serialise {db : DB} (hbounded : Bounded db)
    {target : EventStateMachine} {lastApplied : UInt64}
    (happlied : readCounter .pebble db appliedIndexKey target.lastApplied =
      .ok lastApplied) :
    recoverFromSnapshot .pebble none .none .none target ⟨serialise db, false⟩ =
      (⟨db, target.repo, lastApplied⟩, .ok ()) := by
  have hreload : reloadApplied .pebble { target with db } = .ok lastApplied := by
    rw [readCounter] at happlied
    rw [reloadApplied]
    cases hget : Engine.pebble.get db appliedIndexKey with
    | error err =>
        rw [hget] at happlied
        by_cases herr : err = .pebbleErrNotFound
        · simpa [herr] using happlied
        · simp [herr] at happlied
    | ok value =>
        rw [hget] at happlied
        simp only [bigEndianUint64] at happlied ⊢
        split at happlied
        · cases happlied
        · rename_i hlength
          rw [if_neg hlength]
          exact congrArg Except.ok (Except.ok.inj happlied)
  simp only [recoverFromSnapshot, clearDB_none, restoreDB_serialise hbounded,
    hreload]

end FutureQ.Snapshot
