import FutureQ.Broker.Publishers
import FutureQ.Event.Failures

/-!
# Starting on a database that exists

A new process reads its two counters back: `NewEventRepository` the last event
ID and `Open` the applied index.  Both test the error of `Get` against Pebble's
sentinel, while bbolt reports the sentinel of the storage contract.  The nodes
below write through both paths, interleaved publishers and `Update` calls, on
either engine and with a disk that may refuse any write.
-/

namespace FutureQ.Startup

open FutureQ.ByteOrder
open FutureQ.GoRuntime
open FutureQ.OrderedStore
open FutureQ.Transition
open FutureQ.Storage
open FutureQ.Keys
open FutureQ.Repository
open FutureQ.Commands
open FutureQ.CommandCodec
open FutureQ.StateMachine
open FutureQ.Journal
open FutureQ.Replica
open FutureQ.Failures
open FutureQ.Publishers

/-! ## What a start needs -/

/-- Both counters are read back on this engine. -/
structure ReadsBack (engine : Engine) (db : DB) (bucketSize : TimeBucketSize) :
    Prop where
  repository : newEventRepository engine db bucketSize =
    .ok ⟨recorded db eventsLastIDKey, bucketSize⟩
  opening : ∀ sm : EventStateMachine, sm.db = db →
    open_ engine sm = .ok { sm with lastApplied := recorded db appliedIndexKey }

/-- The records under the metadata keys are long enough for `Uint64`. -/
def Readable (db : DB) : Prop :=
  ∀ key value, db[key]? = some value → NotReserved key ∨ 8 ≤ value.length

/-- The write leaves no short record under a metadata key. -/
def LeavesReadable : Op → Prop
  | .set key value => NotReserved key ∨ 8 ≤ value.length
  | .delete _ => True

theorem readable_empty : Readable ∅ := by
  intro key value hvalue
  rw [Std.ExtTreeMap.getElem?_empty] at hvalue
  cases hvalue

theorem Readable.commit {db : DB} (hreadable : Readable db) {ops : List Op}
    (hops : ∀ op ∈ ops, LeavesReadable op) :
    Readable (OrderedStore.commit db ops) := by
  intro key value hvalue
  rcases getElem?_commit_eq_some hvalue with hbefore | hset
  · exact hreadable key value hbefore
  · exact hops _ hset

theorem readCounter_of_readable {db : DB} {key : Bytes}
    (hreadable : Readable db) (hkey : ¬ NotReserved key) (engine : Engine) :
    readCounter engine db key 0 = .ok (recorded db key) ↔
      engine = .pebble ∨ key ∈ db := by
  cases hvalue : db[key]? with
  | some value =>
      have hlength : ¬ value.length < 8 :=
        not_lt.mpr ((hreadable key value hvalue).resolve_left hkey)
      have hmem : key ∈ db := Std.ExtTreeMap.mem_iff_isSome_getElem?.mpr (by simp [hvalue])
      rw [readCounter, get_of_some hvalue, recorded, hvalue]
      simp [bigEndianUint64, hlength, hmem]
  | none =>
      have hmem : key ∉ db := by
        simp [Std.ExtTreeMap.mem_iff_isSome_getElem?, hvalue]
      cases engine with
      | pebble => simp [readCounter_of_none hvalue, recorded, hvalue]
      | bolt => simp [readCounter, Engine.get, Engine.notFound, hmem]

theorem newEventRepository_eq_ok_iff {engine : Engine} {db : DB}
    {bucketSize : TimeBucketSize} {lastID : UInt64} :
    newEventRepository engine db bucketSize = .ok ⟨lastID, bucketSize⟩ ↔
      readCounter engine db eventsLastIDKey 0 = .ok lastID := by
  simp only [newEventRepository, bind_eq_ok_iff, pure_eq_ok_iff,
    EventRepository.mk.injEq, and_true, exists_eq_right]

theorem open_eq_ok_iff {engine : Engine} {sm : EventStateMachine}
    {lastApplied : UInt64} :
    open_ engine sm = .ok { sm with lastApplied } ↔
      readCounter engine sm.db appliedIndexKey 0 = .ok lastApplied := by
  simp only [open_, bind_eq_ok_iff, pure_eq_ok_iff, EventStateMachine.mk.injEq,
    true_and, exists_eq_right]

/-- On records that can be read, Pebble always starts and bbolt needs both. -/
theorem readsBack_iff {db : DB} (hreadable : Readable db) (engine : Engine)
    (bucketSize : TimeBucketSize) :
    ReadsBack engine db bucketSize ↔
      engine = .pebble ∨ (eventsLastIDKey ∈ db ∧ appliedIndexKey ∈ db) := by
  have hlastID := readCounter_of_readable hreadable
    (show ¬ NotReserved eventsLastIDKey by simp [NotReserved]) engine
  have happlied := readCounter_of_readable hreadable
    (show ¬ NotReserved appliedIndexKey by simp [NotReserved]) engine
  rw [or_and_left, ← hlastID, ← happlied]
  constructor
  · intro hreads
    exact ⟨newEventRepository_eq_ok_iff.mp hreads.repository,
      open_eq_ok_iff.mp (hreads.opening ⟨db, ⟨0, bucketSize⟩, 0⟩ rfl)⟩
  · rintro ⟨hrepository, hopening⟩
    refine ⟨newEventRepository_eq_ok_iff.mpr hrepository, ?_⟩
    rintro sm rfl
    exact open_eq_ok_iff.mpr hopening

/-! ## Nodes that write through both paths -/

structure Node (Index : Type) where
  broker : Publishers.State Index
  lastApplied : UInt64

def Node.sm {Index : Type} (node : Node Index) : EventStateMachine :=
  ⟨node.broker.db, node.broker.repo, node.lastApplied⟩

inductive Action (Index : Type) where
  | publish (action : Publishers.Action Index)
  | update (faults : Faults) (entries : List Entry)
  | reboot (bucketSize : TimeBucketSize)

section Runs

variable {Index : Type} (lib : Libraries Index) (engine : Engine)

/-- A node with zero counters over an empty database. -/
def Node.fresh (bucketSize : TimeBucketSize) : Node Index :=
  ⟨opened ∅ ⟨0, bucketSize⟩, 0⟩

/-- The process ends and a new one starts on its database. -/
def Node.reboot (node : Node Index) (bucketSize : TimeBucketSize) :
    Option (Node Index) :=
  match start engine bucketSize node.broker.db with
  | .error _ => none
  | .ok sm => some ⟨{ node.broker with repo := sm.repo, publishers := [] },
      sm.lastApplied⟩

def step (node : Node Index) : Action Index → Option (Node Index)
  | .publish action =>
      (Publishers.step lib engine node.broker action).map fun broker =>
        { node with broker }
  | .update faults entries =>
      match update engine faults node.sm entries with
      | .error _ => node.reboot engine node.broker.repo.bucketSize
      | .ok updated =>
          some ⟨{ node.broker with db := updated.sm.db, repo := updated.sm.repo },
            updated.sm.lastApplied⟩
  | .reboot bucketSize => node.reboot engine bucketSize

end Runs

/-! ## The records stay readable -/

/-- A store writes the counter, a record of its own, and 24 bytes per index. -/
theorem leavesReadable_eventOps {key : Bytes} (hlength : key.length = 24)
    (nextID : UInt64) (data : Bytes) (indexes : List Bytes) :
    ∀ op ∈ eventOps nextID key data indexes, LeavesReadable op := by
  rw [eventOps, List.forall_mem_cons, List.forall_mem_cons]
  refine ⟨.inr (by simp), .inl (notReserved_of_length hlength), ?_⟩
  intro op hop
  obtain ⟨idx, -, rfl⟩ := List.mem_map.mp hop
  exact .inr (by omega)

theorem holds_storeItems (faults : Faults) (items : List StoreBatchItem)
    (repo : EventRepository) {batch : Batch} (hholds : batch.Holds LeavesReadable) :
    (storeItems faults items repo batch).batch.Holds LeavesReadable := by
  induction items generalizing repo batch with
  | nil => exact hholds
  | cons item items ih =>
      have hput := keeps_putRaw faults (leavesReadable_eventOps
        (length_eventKey item.bucket item.topicHash (repo.lastID + 1))
        (repo.lastID + 1) item.msg item.indexes) batch hholds
      rw [storeItems, storeRawWithBatch]
      rcases hstore : putRaw faults (repo.lastID + 1) item.bucket item.topicHash
        item.indexes item.msg batch with ⟨err | key, filled⟩
      · rw [hstore] at hput
        exact hput
      · rw [hstore] at hput
        exact ih _ hput

theorem holds_deleteKeys (faults : Faults) (keys : List Bytes) {batch : Batch}
    (hholds : batch.Holds LeavesReadable) :
    (deleteKeys faults keys batch).2.Holds LeavesReadable := by
  induction keys generalizing batch with
  | nil => exact hholds
  | cons key keys ih =>
      have hdelete : ((delete faults key) batch).2.Holds LeavesReadable :=
        keeps_attempt faults trivial batch hholds
      rw [deleteKeys]
      rcases hcall : delete faults key batch with ⟨err | _, rest⟩
      · rw [hcall] at hdelete
        exact ih hdelete
      · rw [hcall] at hdelete
        exact ih hdelete

theorem holds_applied (faults : Faults) (repo : EventRepository) {batch : Batch}
    (hholds : batch.Holds LeavesReadable) (command : Command) :
    (applied faults repo batch command).batch.Holds LeavesReadable := by
  cases command with
  | store items =>
      have hitems := holds_storeItems faults items repo hholds
      rw [applied]
      split <;> exact hitems
  | delete keys => exact holds_deleteKeys faults keys hholds
  | skip => exact hholds

theorem holds_foldlM_applyNext {faults : Faults} {entries : List Entry}
    {progress final : Progress} (hholds : progress.batch.Holds LeavesReadable)
    (hloop : entries.foldlM (applyNext faults) progress = .ok final) :
    final.batch.Holds LeavesReadable := by
  induction entries generalizing progress with
  | nil =>
      cases hloop
      exact hholds
  | cons entry entries ih =>
      obtain ⟨command, middle, -, -, hbatch, -, hrest⟩ :=
        foldlM_applyNext_cons_eq_ok hloop
      have hmiddle := holds_applied faults progress.repo hholds command
      rw [← hbatch] at hmiddle
      exact ih hmiddle hrest

theorem Readable.update {engine : Engine} {faults : Faults} {sm : EventStateMachine}
    {entries : List Entry} {updated : Updated} (hreadable : Readable sm.db)
    (hupdate : StateMachine.update engine faults sm entries = .ok updated) :
    Readable updated.sm.db := by
  obtain ⟨progress, hloop, ⟨err, -, hsm⟩ | ⟨results, -, hsm⟩⟩ := update_cases hupdate
  · rw [hsm]
    exact hreadable
  · rw [hsm]
    have hholds := holds_foldlM_applyNext holds_newBatch hloop
    apply hreadable.commit
    rw [List.forall_mem_append]
    exact ⟨hholds, by simp [LeavesReadable]⟩

section Invariant

variable {Index : Type} {lib : Libraries Index} {engine : Engine}

/-- The database can be read back, and so can what the publishers collected. -/
structure Sound (broker : Publishers.State Index) : Prop where
  readable : Readable broker.db
  pending : ∀ publisher ∈ broker.publishers, publisher.batch.Holds LeavesReadable

theorem Sound.drop {broker : Publishers.State Index} (hsound : Sound broker)
    {before after : List (Publisher Index)} {publisher : Publisher Index}
    (hsplit : broker.publishers = before ++ publisher :: after)
    (repo : EventRepository) :
    Sound { broker with repo, publishers := before ++ after } where
  readable := hsound.readable
  pending other hother := by
    apply hsound.pending
    rw [hsplit]
    exact List.mem_append.mpr ((List.mem_append.mp hother).imp_right
      (List.mem_cons_of_mem _))

theorem Sound.publish {broker next : Publishers.State Index}
    {action : Publishers.Action Index} (hsound : Sound broker)
    (hstep : Publishers.step lib engine broker action = some next) :
    Sound next := by
  cases effect_of_step hstep with
  | arrive batch nowMs =>
      refine ⟨hsound.readable, ?_⟩
      rw [List.forall_mem_append]
      exact ⟨hsound.pending, by simpa using holds_newBatch⟩
  | refuse action before after publisher hsplit => exact hsound.drop hsplit _
  | waste faults before after publisher hsplit => exact hsound.drop hsplit _
  | store faults before after publisher msgs event hsplit hlength hid =>
      have hpending := hsound.pending
      rw [hsplit, List.forall_mem_append, List.forall_mem_cons] at hpending
      refine ⟨hsound.readable, ?_⟩
      rw [List.forall_mem_append, List.forall_mem_cons]
      exact ⟨hpending.1, hpending.2.1.push
        (leavesReadable_eventOps hlength _ _ _), hpending.2.2⟩
  | commit faults before after publisher db hsplit hcommit =>
      have hself := hsound.pending publisher (by simp [hsplit])
      refine ⟨?_, (hsound.drop hsplit broker.repo).pending⟩
      rw [commit_eq_ok hcommit]
      exact hsound.readable.commit hself
  | restart bucketSize repo hidle hopen => exact ⟨hsound.readable, hsound.pending⟩

theorem Sound.reboot {node next : Node Index} (hsound : Sound node.broker)
    {bucketSize : TimeBucketSize} (hreboot : node.reboot engine bucketSize = some next) :
    Sound next.broker := by
  rw [Node.reboot] at hreboot
  split at hreboot
  · cases hreboot
  · cases hreboot
    exact ⟨hsound.readable, by simp⟩

theorem Sound.step {node next : Node Index} {action : Action Index}
    (hsound : Sound node.broker)
    (hstep : Startup.step lib engine node action = some next) :
    Sound next.broker := by
  cases action with
  | publish action =>
      obtain ⟨broker, hbroker, rfl⟩ := Option.map_eq_some_iff.mp hstep
      exact hsound.publish hbroker
  | update faults entries =>
      rw [Startup.step] at hstep
      split at hstep
      · exact hsound.reboot hstep
      · rename_i updated hupdate
        cases hstep
        exact ⟨Readable.update hsound.readable hupdate, hsound.pending⟩
  | reboot bucketSize => exact hsound.reboot hstep

/-- On the contents that any run of publishers and `Update` calls leaves, a
start reads both counters back unless it runs on bbolt and a record is absent. -/
theorem start_reads_back_iff (first bucketSize : TimeBucketSize)
    {actions : List (Action Index)} {finish : Node Index}
    (hrun : run (Startup.step lib engine) (Node.fresh first) actions = some finish) :
    ReadsBack engine finish.broker.db bucketSize ↔
      engine = .pebble ∨ (eventsLastIDKey ∈ finish.broker.db ∧
        appliedIndexKey ∈ finish.broker.db) := by
  have hfresh : Sound (Node.fresh first : Node Index).broker :=
    ⟨readable_empty, by simp [Node.fresh, opened]⟩
  have hstep : ∀ (node : Node Index) (action : Action Index) (next : Node Index),
      Sound node.broker → Startup.step lib engine node action = some next →
        Sound next.broker :=
    fun _ _ _ hsound hnext => hsound.step hnext
  exact readsBack_iff (run_preserves hstep hfresh hrun).readable engine bucketSize

end Invariant

/-! ## A bbolt node -/

/-- One store command with one message. -/
def storeMessage : Entry := ⟨1, encodeStoreBatch [⟨5, 7, [], [1]⟩]⟩

/-- Over the empty database bbolt fails both reads with the contract's
sentinel. -/
theorem bolt_fresh_start_fails :
    run (Startup.step plainLibraries .bolt) (Node.fresh ⟨0, .inl rfl⟩) [] =
        some (Node.fresh ⟨0, .inl rfl⟩) ∧
      newEventRepository .bolt (Node.fresh ⟨0, .inl rfl⟩ : Node Bytes).broker.db
        ⟨0, .inl rfl⟩ = .error (.error .errNotFound) ∧
      (∀ lastID, open_ .bolt ⟨(Node.fresh ⟨0, .inl rfl⟩ : Node Bytes).broker.db,
        ⟨lastID, ⟨0, .inl rfl⟩⟩, 0⟩ = .error (.error .errNotFound)) ∧
      ¬ ReadsBack .bolt (Node.fresh ⟨0, .inl rfl⟩ : Node Bytes).broker.db
        ⟨0, .inl rfl⟩ := by
  have hrepository : newEventRepository .bolt
      (Node.fresh ⟨0, .inl rfl⟩ : Node Bytes).broker.db ⟨0, .inl rfl⟩ =
        .error (.error .errNotFound) := rfl
  refine ⟨rfl, hrepository, fun _ => rfl, fun hreads => ?_⟩
  have hok := hreads.repository
  rw [hrepository] at hok
  cases hok

/-- After one `Update` both records are there and bbolt starts. -/
theorem start_reads_back_iff_storeMessage :
    ∃ finish, run (Startup.step plainLibraries .bolt) (Node.fresh ⟨0, .inl rfl⟩)
        [.update .none [storeMessage]] = some finish ∧
      ReadsBack .bolt finish.broker.db ⟨0, .inl rfl⟩ := by
  have hruns : ∃ finish, run (Startup.step plainLibraries .bolt)
      (Node.fresh ⟨0, .inl rfl⟩) [.update .none [storeMessage]] = some finish ∧
        (eventsLastIDKey ∈ finish.broker.db ∧ appliedIndexKey ∈ finish.broker.db) := by
    apply exists_finish_of_any
    decide +kernel
  obtain ⟨finish, hrun, hrecords⟩ := hruns
  exact ⟨finish, hrun, (start_reads_back_iff _ _ hrun).mpr (.inr hrecords)⟩

end FutureQ.Startup
