import FutureQ.Broker.Deleter
import FutureQ.Broker.WritePaths
import FutureQ.Event.Replica

/-!
# Index entries and their events

Both store paths point every index of a message at the event key of the
message.  The delete paths know event keys only, so an index entry outlives its
event unless the event is deleted while no entry points at it.
-/

namespace FutureQ.Indexes

open FutureQ.ByteOrder
open FutureQ.GoRuntime
open FutureQ.OrderedStore
open FutureQ.Transition
open FutureQ.Storage
open FutureQ.Keys
open FutureQ.Repository
open FutureQ.Commands
open FutureQ.CommandCodec
open FutureQ.StateMachine
open FutureQ.Journal
open FutureQ.Replica
open FutureQ.Producer
open FutureQ.WritePaths
open FutureQ.Deleter

variable {Index : Type}

/-- A broker's records, with every index it ever stored. -/
structure Records where
  sm : EventStateMachine
  indexed : List Bytes

def Records.fresh (bucketSize : TimeBucketSize) : Records :=
  ⟨⟨∅, ⟨0, bucketSize⟩, 0⟩, []⟩

/-- `update` is a committed entry of the Raft backend; `publish` and
`deleteKeys` are what a standalone broker does. -/
inductive Action (Index : Type) where
  | update (entry : Entry)
  | publish (batch : PublishBatch Index) (nowMs : Int64)
  | deleteKeys (keys : List Bytes)

/-- The index bytes of a store command. -/
def commandIndexes (cmd : Bytes) : List Bytes :=
  match unmarshalStoreBatchCmd cmd with
  | .ok items => items.flatMap StoreBatchItem.indexes
  | .error _ => []

/-- The index bytes of a publish batch. -/
def batchIndexes (lib : Libraries Index) (batch : PublishBatch Index) :
    List Bytes :=
  batch.messages.flatMap fun msg =>
    msg.indexes.filterMap fun idx => (lib.marshalIndex idx).toOption

def step (lib : Libraries Index) (records : Records) : Action Index → Option Records
  | .update entry =>
      match update .pebble .none records.sm [entry] with
      | .error _ => none
      | .ok updated =>
          some ⟨updated.sm, records.indexed ++ commandIndexes entry.cmd⟩
  | .publish batch nowMs =>
      match processStandaloneBatch lib .pebble .none records.sm.repo records.sm.db
          batch nowMs with
      | (.error _, repo, db) => some { records with sm := { records.sm with repo, db } }
      | (.ok (), repo, db) =>
          some ⟨{ records.sm with repo, db },
            records.indexed ++ batchIndexes lib batch⟩
  | .deleteKeys keys =>
      match directDeleteKeys .pebble .none records.sm.db keys with
      | .error _ => none
      | .ok db => some { records with sm := { records.sm with db } }

/-- Every index entry points at an event that is in the database. -/
def Linked (records : Records) : Prop :=
  ∀ idx ∈ records.indexed, ∀ value, records.sm.db[idx]? = some value →
    value.length = 24 ∧ value ∈ records.sm.db

/-- No index entry that stays points at one of the keys. -/
def Unreferenced (records : Records) (keys : List Bytes) : Prop :=
  ∀ key ∈ keys, ∀ idx ∈ records.indexed,
    records.sm.db[idx]? = some key → idx ∈ keys

instance (records : Records) (keys : List Bytes) :
    Decidable (Unreferenced records keys) :=
  inferInstanceAs (Decidable (∀ key ∈ keys, ∀ idx ∈ records.indexed,
    records.sm.db[idx]? = some key → idx ∈ keys))

/-- Stores bring only indexes that cannot be taken for other records, and deletes
take only events that no index entry points at. -/
def KeepsLinks (lib : Libraries Index) (records : Records) : Action Index → Prop
  | .update entry => (∀ idx ∈ commandIndexes entry.cmd, Foreign idx) ∧
      ∀ keys, unmarshalDeleteBatchCmd entry.cmd = .ok keys →
        Unreferenced records keys
  | .publish batch _ => ∀ idx ∈ batchIndexes lib batch, Foreign idx
  | .deleteKeys keys => Unreferenced records keys

instance (lib : Libraries Index) (records : Records) (action : Action Index) :
    Decidable (KeepsLinks lib records action) :=
  match action with
  | .update _ => inferInstanceAs (Decidable (_ ∧ _))
  | .publish _ _ => inferInstanceAs (Decidable (∀ _ ∈ _, _))
  | .deleteKeys _ => inferInstanceAs (Decidable (Unreferenced _ _))

/-! ## What a step does to the database -/

/-- A step stores items or deletes keys, possibly with the applied index, or
leaves the database alone. -/
inductive Effect (records : Records) : Records → Prop where
  | store (items : List StoreBatchItem) (tail : List Op) (next : Records)
      (htail : ∀ op ∈ tail, ∃ value, op = .set appliedIndexKey value)
      (hdb : next.sm.db = commit records.sm.db
        (storeOps records.sm.repo.lastID items ++ tail))
      (hindexed : next.indexed =
        records.indexed ++ items.flatMap StoreBatchItem.indexes) :
      Effect records next
  | delete (keys : List Bytes) (tail : List Op) (next : Records)
      (htail : ∀ op ∈ tail, ∃ value, op = .set appliedIndexKey value)
      (hdb : next.sm.db = commit records.sm.db (keys.map .delete ++ tail))
      (hindexed : next.indexed = records.indexed)
      (hunreferenced : Unreferenced records keys) :
      Effect records next

theorem batchIndexes_eq {lib : Libraries Index} {bucketSize : TimeBucketSize}
    {nowMs : Int64} {msgs : List (Message Index)} {items : List StoreBatchItem}
    (hitems : List.Forall₂ (Becomes lib bucketSize nowMs) msgs items) :
    (msgs.flatMap fun msg =>
      msg.indexes.filterMap fun idx => (lib.marshalIndex idx).toOption) =
        items.flatMap StoreBatchItem.indexes := by
  induction hitems with
  | nil => rfl
  | cons hitem _ ih =>
      obtain ⟨-, -, hindexes, -⟩ := raftItem_eq_ok_iff.mp hitem.2.2
      rw [List.flatMap_cons, List.flatMap_cons, ih]
      congr 1
      exact filterMap_toOption hindexes

theorem commandIndexes_of_not_store {cmd : Bytes} {command : Command}
    (hdecode : decodeCommand cmd = .ok command)
    (hstore : ∀ items, command ≠ .store items) : commandIndexes cmd = [] := by
  rw [commandIndexes]
  split
  · rename_i items hitems
    rw [← decodeCommand_eq_store_iff, hdecode, Except.ok.injEq] at hitems
    exact absurd hitems (hstore items)
  · rfl

theorem effect_of_step {lib : Libraries Index} {records next : Records}
    {action : Action Index} (hguard : KeepsLinks lib records action)
    (hstep : step lib records action = some next) :
    Effect records next ∧ ∀ idx ∈ next.indexed, idx ∈ records.indexed ∨ Foreign idx := by
  cases action with
  | update entry =>
      simp only [step] at hstep
      split at hstep
      · cases hstep
      · rename_i updated hupdate
        cases hstep
        obtain ⟨command, hdecode, rfl⟩ := exists_command_of_update hupdate
        refine ⟨?_, fun idx hidx => (List.mem_append.mp hidx).imp_right (hguard.1 idx)⟩
        cases command with
        | store items =>
            have hitems := decodeCommand_eq_store_iff.mp hdecode
            refine .store items [.set appliedIndexKey (putUint64 entry.index)] _
              (by simp) ?_ ?_
            · simp [report, play, logOps, Command.ops, lastIndex]
            · simp [commandIndexes, hitems]
        | delete keys =>
            refine .delete keys [.set appliedIndexKey (putUint64 entry.index)] _
              (by simp) ?_ ?_ (hguard.2 keys (decodeCommand_eq_delete_iff.mp hdecode))
            · simp [report, play, logOps, Command.ops, lastIndex]
            · simp [commandIndexes_of_not_store hdecode]
        | skip =>
            refine .delete [] [.set appliedIndexKey (putUint64 entry.index)] _
              (by simp) ?_ ?_ (by simp [Unreferenced])
            · simp [report, play, logOps, Command.ops, lastIndex]
            · simp [commandIndexes_of_not_store hdecode]
  | publish batch nowMs =>
      simp only [step] at hstep
      rcases hprocess : processStandaloneBatch lib .pebble .none records.sm.repo
        records.sm.db batch nowMs with ⟨outcome, repo, db⟩
      rw [hprocess] at hstep
      rcases processStandaloneBatch_cases hprocess with
        ⟨err, rfl, rfl, -⟩ | ⟨rfl, items, hitems, rfl, -⟩
      · cases hstep
        exact ⟨.delete [] [] _ (by simp) (by simp) rfl (by simp [Unreferenced]),
          fun idx hidx => .inl hidx⟩
      · cases hstep
        refine ⟨.store items [] _ (by simp) (by simp) ?_,
          fun idx hidx => (List.mem_append.mp hidx).imp_right (hguard idx)⟩
        rw [batchIndexes, batchIndexes_eq hitems]
  | deleteKeys keys =>
      simp only [step, directDeleteKeys_none] at hstep
      cases hstep
      exact ⟨.delete keys [] _ (by simp) (by simp) rfl hguard,
        fun idx hidx => .inl hidx⟩

/-! ## The invariant -/

/-- Whatever is neither an event nor metadata is an index entry, and points at an
event. -/
structure Sound (records : Records) : Prop where
  entries : ∀ idx value, Foreign idx → records.sm.db[idx]? = some value →
    idx ∈ records.indexed ∧ value.length = 24 ∧ value ∈ records.sm.db
  foreign : ∀ idx ∈ records.indexed, Foreign idx

theorem Sound.linked {records : Records} (hsound : Sound records) :
    Linked records :=
  fun idx hidx value hvalue =>
    (hsound.entries idx value (hsound.foreign idx hidx) hvalue).2

theorem sound_fresh (bucketSize : TimeBucketSize) :
    Sound (Records.fresh bucketSize) where
  entries idx value _ hvalue := by simp [Records.fresh] at hvalue
  foreign idx hidx := absurd hidx List.not_mem_nil

theorem Sound.store {records : Records} (hsound : Sound records)
    {items : List StoreBatchItem} {tail : List Op}
    (htail : ∀ op ∈ tail, ∃ value, op = .set appliedIndexKey value)
    {idx value : Bytes} (hforeign : Foreign idx)
    (hvalue : (commit records.sm.db
      (storeOps records.sm.repo.lastID items ++ tail))[idx]? = some value) :
    idx ∈ records.indexed ++ items.flatMap StoreBatchItem.indexes ∧
      value.length = 24 ∧ value ∈ commit records.sm.db
        (storeOps records.sm.repo.lastID items ++ tail) := by
  have hsets : ∀ op ∈ storeOps records.sm.repo.lastID items ++ tail,
      ∃ key value, op = .set key value := by
    intro op hop
    rcases List.mem_append.mp hop with hstore | htailOp
    · exact set_of_mem_storeOps hstore
    · obtain ⟨written, rfl⟩ := htail op htailOp
      exact ⟨_, _, rfl⟩
  rcases getElem?_commit_eq_some hvalue with hbefore | hset
  · obtain ⟨hidx, hlength, hmem⟩ := hsound.entries idx value hforeign hbefore
    exact ⟨List.mem_append_left _ hidx, hlength,
      mem_commit_of_sets hsets (.inl hmem)⟩
  · rcases List.mem_append.mp hset with hstore | htailOp
    · rcases mem_storeOps hstore with ⟨id, hrecord, -⟩ | ⟨hkey, -⟩ |
        ⟨hkey, item, hitem, hidx⟩
      · exact absurd hrecord hforeign.2.1
      · exact absurd (length_of_mem_storeKeys hkey) hforeign.1
      · obtain ⟨written, hwritten⟩ := exists_set_of_mem_storeKeys hkey
        exact ⟨List.mem_append_right _ (List.mem_flatMap.mpr ⟨item, hitem, hidx⟩),
          length_of_mem_storeKeys hkey,
          mem_commit_of_sets hsets (.inr ⟨written, List.mem_append_left _ hwritten⟩)⟩
    · obtain ⟨written, heq⟩ := htail _ htailOp
      cases heq
      exact absurd rfl hforeign.2.2

theorem Sound.delete {records : Records} (hsound : Sound records)
    {keys : List Bytes} {tail : List Op}
    (htail : ∀ op ∈ tail, ∃ value, op = .set appliedIndexKey value)
    (hunreferenced : Unreferenced records keys) {idx value : Bytes}
    (hforeign : Foreign idx)
    (hvalue : (commit records.sm.db (keys.map .delete ++ tail))[idx]? =
      some value) :
    idx ∈ records.indexed ∧ value.length = 24 ∧
      value ∈ commit records.sm.db (keys.map .delete ++ tail) := by
  have hpast : ∀ {key : Bytes}, key ≠ appliedIndexKey →
      (commit records.sm.db (keys.map .delete ++ tail))[key]? =
        (commit records.sm.db (keys.map .delete))[key]? := by
    intro key hkey
    rw [commit_append]
    apply getElem?_commit_of_untouched
    intro op hop
    obtain ⟨written, rfl⟩ := htail op hop
    exact hkey.symm
  rw [hpast hforeign.2.2] at hvalue
  have hstays : idx ∉ keys := by
    intro hmem
    rw [getElem?_commit_delete_mem _ hmem] at hvalue
    cases hvalue
  have huntouched : ∀ {key : Bytes}, key ∉ keys →
      (commit records.sm.db (keys.map .delete))[key]? = records.sm.db[key]? := by
    intro key hkey
    apply getElem?_commit_of_untouched
    intro op hop heq
    obtain ⟨other, hother, rfl⟩ := List.mem_map.mp hop
    exact hkey (heq ▸ hother)
  rw [huntouched hstays] at hvalue
  obtain ⟨hidx, hlength, hmem⟩ := hsound.entries idx value hforeign hvalue
  have hevent : value ∉ keys :=
    fun hdeleted => hstays (hunreferenced value hdeleted idx hidx hvalue)
  have hmetadata := (appliedIndexKey_ne_of_length hlength).symm
  refine ⟨hidx, hlength, ?_⟩
  rw [Std.ExtTreeMap.mem_iff_isSome_getElem?, hpast hmetadata, huntouched hevent,
    ← Std.ExtTreeMap.mem_iff_isSome_getElem?]
  exact hmem

theorem Sound.step {records next : Records} (hsound : Sound records)
    (heffect : Effect records next)
    (hforeign : ∀ idx ∈ next.indexed, idx ∈ records.indexed ∨ Foreign idx) :
    Sound next := by
  refine ⟨?_, fun idx hidx => (hforeign idx hidx).elim (hsound.foreign idx) id⟩
  intro idx value hidx hvalue
  cases heffect with
  | store items tail _ htail hdb hindexed =>
      rw [hdb] at hvalue ⊢
      rw [hindexed]
      exact hsound.store htail hidx hvalue
  | delete keys tail _ htail hdb hindexed hunreferenced =>
      rw [hdb] at hvalue ⊢
      rw [hindexed]
      exact hsound.delete htail hunreferenced hidx hvalue

/-- In every run in which no event is deleted while an index entry points at it,
every index entry points at a stored event. -/
theorem indexes_never_dangle (lib : Libraries Index) (bucketSize : TimeBucketSize)
    {actions : List (Action Index)} {records : Records}
    (hmeets : Meets (step lib) (KeepsLinks lib) (.fresh bucketSize) actions)
    (hrun : run (step lib) (.fresh bucketSize) actions = some records) :
    Linked records := by
  refine (run_invariant ?_ (sound_fresh bucketSize) hmeets hrun).linked
  intro state action next hsound hguard hstep
  obtain ⟨heffect, hforeign⟩ := effect_of_step hguard hstep
  exact hsound.step heffect hforeign

/-- Two messages with the same index; the first of them is deleted. -/
def sharedIndex : List (Action Bytes) :=
  [.update ⟨1, encodeStoreBatch [⟨0, 7, [[5]], [1]⟩]⟩,
    .update ⟨2, encodeStoreBatch [⟨0, 7, [[5]], [2]⟩]⟩,
    .update ⟨3, encodeDeleteBatch [eventKey 0 7 1]⟩]

theorem indexes_never_dangle_otherDeleted :
    ∃ records, run (step plainLibraries) (.fresh ⟨0, .inl rfl⟩) sharedIndex =
        some records ∧
      records.sm.db[eventKey 0 7 1]? = none ∧
      records.sm.db[([5] : Bytes)]? = some (eventKey 0 7 2) ∧ Linked records := by
  have hmeets : Meets (step plainLibraries) (KeepsLinks plainLibraries)
      (.fresh ⟨0, .inl rfl⟩) sharedIndex := by
    decide +kernel
  have hfinish : ∃ records, run (step plainLibraries) (.fresh ⟨0, .inl rfl⟩) sharedIndex =
      some records ∧ records.sm.db[eventKey 0 7 1]? = none ∧
        records.sm.db[([5] : Bytes)]? = some (eventKey 0 7 2) :=
    exists_finish_of_any (by decide +kernel)
  obtain ⟨records, hrun, hdeleted, hentry⟩ := hfinish
  exact ⟨records, hrun, hdeleted, hentry, indexes_never_dangle _ _ hmeets hrun⟩

/-- A message with an index, and its deletion. -/
def storeThenDelete (key : Bytes) : List (Action Bytes) :=
  [.update ⟨1, encodeStoreBatch [⟨0, 7, [[5]], [1]⟩]⟩,
    .update ⟨2, encodeDeleteBatch [key]⟩]

/-- A delete command removes the event and leaves the index entry behind. -/
theorem deleted_event_leaves_index :
    ∃ records, run (step plainLibraries) (.fresh ⟨0, .inl rfl⟩)
        (storeThenDelete (eventKey 0 7 1)) = some records ∧
      records.sm.db[([5] : Bytes)]? = some (eventKey 0 7 1) ∧
      records.sm.db[eventKey 0 7 1]? = none :=
  exists_finish_of_any (by decide +kernel)

end FutureQ.Indexes
