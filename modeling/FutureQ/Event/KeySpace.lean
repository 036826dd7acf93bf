import FutureQ.Event.Freshness

/-!
# One flat keyspace

Event records, two metadata records and the producers' index entries share one
keyspace without a prefix.  Index bytes come from the producers; as long as none
of them is 24 bytes long or a metadata key, the three kinds of records stay
apart and the length of a key tells what it is.
-/

namespace FutureQ.KeySpace

open FutureQ.ByteOrder
open FutureQ.OrderedStore
open FutureQ.Transition
open FutureQ.Storage
open FutureQ.Keys
open FutureQ.Repository
open FutureQ.Commands
open FutureQ.CommandCodec
open FutureQ.StateMachine
open FutureQ.Journal
open FutureQ.Replica
open FutureQ.Freshness

/-- A replica with the messages it stored, each with its event key, in order. -/
structure Archive where
  sm : EventStateMachine
  stored : List (Bytes × Bytes)

def Archive.fresh (bucketSize : TimeBucketSize) : Archive :=
  ⟨⟨∅, ⟨0, bucketSize⟩, 0⟩, []⟩

/-- `Update` with one store command. -/
def step (archive : Archive) (entry : Entry) : Option Archive :=
  match unmarshalStoreBatchCmd entry.cmd with
  | .error _ => none
  | .ok items =>
      match update .pebble .none archive.sm [entry] with
      | .error _ => none
      | .ok updated =>
          some ⟨updated.sm, archive.stored ++
            updated.stored.zip (items.map StoreBatchItem.msg)⟩

/-- A metadata record holds the counter it belongs to; it is absent at first. -/
def Recorded (db : DB) (key : Bytes) (counter : UInt64) : Prop :=
  db[key]? = some (putUint64 counter) ∨ db[key]? = none ∧ counter = 0

/-- Every stored message still lies under its key, the length test of
`ParseEventKey` recognises exactly the stored messages, and the metadata records
hold their counters. -/
structure Separate (archive : Archive) : Prop where
  kept : ∀ event ∈ archive.stored, archive.sm.db[event.1]? = some event.2
  recognised : ∀ key value, archive.sm.db[key]? = some value →
    ((∃ fields, parseEventKey key = .ok fields) ↔ (key, value) ∈ archive.stored)
  lastID : Recorded archive.sm.db eventsLastIDKey archive.sm.repo.lastID
  applied : Recorded archive.sm.db appliedIndexKey archive.sm.lastApplied

/-- The index can be taken neither for an event key nor for the last-id record.  An index
equal to the applied-index key does no harm: `Update` writes that record last. -/
def Apart (idx : Bytes) : Prop := idx.length ≠ 24 ∧ idx ≠ eventsLastIDKey

instance instDecidableApart (idx : Bytes) : Decidable (Apart idx) :=
  inferInstanceAs (Decidable (_ ∧ _))

theorem apart_of_foreign {items : List StoreBatchItem}
    (hforeign : ∀ item ∈ items, ∀ idx ∈ item.indexes, Foreign idx) :
    ∀ item ∈ items, ∀ idx ∈ item.indexes, Apart idx := by
  intro item hitem idx hidx
  obtain ⟨hlength, hreserved⟩ := hforeign item hitem idx hidx
  exact ⟨hlength, hreserved.1⟩

/-- No index of the command can be taken for a record that it would overwrite, and the
counter does not come round. -/
def Distinguishable (archive : Archive) (entry : Entry) : Prop :=
  ∀ items, unmarshalStoreBatchCmd entry.cmd = .ok items →
    (∀ item ∈ items, ∀ idx ∈ item.indexes, Apart idx) ∧
      archive.stored.length + items.length ≤ 2 ^ 64

instance (archive : Archive) (entry : Entry) :
    Decidable (Distinguishable archive entry) :=
  inferInstanceAs (Decidable (∀ items, unmarshalStoreBatchCmd entry.cmd = .ok items →
    (∀ item ∈ items, ∀ idx ∈ item.indexes, Apart idx) ∧
      archive.stored.length + items.length ≤ 2 ^ 64))

/-! ## What a command stores -/

/-- The events of a store command. -/
def storedBy (lastID : UInt64) (items : List StoreBatchItem) :
    List (Bytes × Bytes) :=
  (storeKeys lastID items).zip (items.map StoreBatchItem.msg)

theorem length_storedBy (lastID : UInt64) (items : List StoreBatchItem) :
    (storedBy lastID items).length = items.length := by
  simp [storedBy]

theorem map_fst_storedBy (lastID : UInt64) (items : List StoreBatchItem) :
    (storedBy lastID items).map Prod.fst = storeKeys lastID items := by
  rw [storedBy, List.map_fst_zip (by simp)]

theorem exists_split_of_mem_storedBy {lastID : UInt64}
    {items : List StoreBatchItem} {key value : Bytes}
    (hevent : (key, value) ∈ storedBy lastID items) :
    ∃ before item after, items = before ++ item :: after ∧
      key = eventKey item.bucket item.topicHash
        (advance lastID (before.length + 1)) ∧ value = item.msg := by
  induction items generalizing lastID with
  | nil => simp [storedBy, storeKeys] at hevent
  | cons item items ih =>
      rw [storedBy, storeKeys, List.map_cons, List.zip_cons_cons] at hevent
      rcases List.mem_cons.mp hevent with heq | hlater
      · cases heq
        exact ⟨[], item, items, rfl, rfl, rfl⟩
      · obtain ⟨before, other, after, rfl, rfl, rfl⟩ := ih hlater
        refine ⟨item :: before, other, after, rfl, ?_, rfl⟩
        rw [List.length_cons, advance_succ lastID (before.length + 1)]

/-- A write to a 24-byte key is one of a stored message. -/
theorem mem_storedBy_of_set {lastID : UInt64} {items : List StoreBatchItem}
    (hapart : ∀ item ∈ items, ∀ idx ∈ item.indexes, Apart idx)
    {key value : Bytes} (hset : BatchOp.set key value ∈ storeOps lastID items)
    (hlength : key.length = 24) : (key, value) ∈ storedBy lastID items := by
  induction items generalizing lastID with
  | nil => simp [storeOps] at hset
  | cons item items ih =>
      obtain ⟨hitem, hrest⟩ := List.forall_mem_cons.mp hapart
      rw [storedBy, storeKeys, List.map_cons, List.zip_cons_cons]
      simp only [storeOps, eventOps, List.mem_append, List.mem_cons,
        BatchOp.set.injEq, List.mem_map] at hset
      rcases hset with (⟨rfl, rfl⟩ | ⟨rfl, rfl⟩ | ⟨idx, hidx, rfl, rfl⟩) | hlater
      · exact absurd rfl (eventsLastIDKey_ne_of_length hlength)
      · exact List.mem_cons_self
      · exact absurd hlength (hitem idx hidx).1
      · exact List.mem_cons_of_mem _ (ih hrest hlater)

theorem recorded_storeOps {db : DB} {lastID : UInt64}
    (hrecorded : Recorded db eventsLastIDKey lastID) {items : List StoreBatchItem}
    (hapart : ∀ item ∈ items, ∀ idx ∈ item.indexes, Apart idx) :
    Recorded (commit db (storeOps lastID items)) eventsLastIDKey
      (advance lastID items.length) := by
  induction items generalizing db lastID with
  | nil => simpa [storeOps] using hrecorded
  | cons item items ih =>
      obtain ⟨hitem, hrest⟩ := List.forall_mem_cons.mp hapart
      rw [storeOps, commit_append, List.length_cons, advance_succ]
      refine ih (.inl ?_) hrest
      rw [eventOps, commit_cons, getElem?_commit_of_untouched]
      · simp [BatchOp.apply]
      · intro op hop heq
        rcases List.mem_cons.mp hop with rfl | hindex
        · exact eventsLastIDKey_ne_eventKey _ _ _ heq.symm
        · obtain ⟨idx, hidx, rfl⟩ := List.mem_map.mp hindex
          exact (hitem idx hidx).2 heq

theorem exists_parseEventKey_iff {key : Bytes} :
    (∃ fields, parseEventKey key = .ok fields) ↔ key.length = 24 := by
  rw [parseEventKey]
  by_cases hlength : key.length = 24
  · simp [hlength]
  · simp [hlength]

/-! ## The invariant -/

structure Sound (archive : Archive) : Prop extends Separate archive where
  numbered : NumberedFrom 0 (archive.stored.map Prod.fst)
  counter : archive.sm.repo.lastID = advance 0 archive.stored.length

theorem sound_fresh (bucketSize : TimeBucketSize) :
    Sound (Archive.fresh bucketSize) where
  kept event hevent := absurd hevent List.not_mem_nil
  recognised key value hvalue := by simp [Archive.fresh] at hvalue
  lastID := .inr ⟨by simp [Archive.fresh], rfl⟩
  applied := .inr ⟨by simp [Archive.fresh], rfl⟩
  numbered := rfl
  counter := rfl

theorem step_eq_some {archive next : Archive} {entry : Entry}
    (hstep : step archive entry = some next) :
    ∃ items, unmarshalStoreBatchCmd entry.cmd = .ok items ∧
      next = ⟨play archive.sm [entry] [.store items],
        archive.stored ++ storedBy archive.sm.repo.lastID items⟩ := by
  rw [step] at hstep
  split at hstep
  · cases hstep
  · rename_i items hitems
    have hcarries : Carries [entry] [.store items] :=
      .cons (decodeCommand_eq_store_iff.mpr hitems) .nil
    rw [update_eq hcarries] at hstep
    cases hstep
    refine ⟨items, hitems, ?_⟩
    simp [report, logKeys, logItems, Command.items, storedBy]

section Step

variable {archive : Archive} {entry : Entry} {items : List StoreBatchItem}

theorem db_play_store (sm : EventStateMachine) (entry : Entry)
    (items : List StoreBatchItem) :
    (play sm [entry] [.store items]).db =
      (commit sm.db (storeOps sm.repo.lastID items)).insert appliedIndexKey
        (putUint64 entry.index) := by
  rw [play, commit_append]
  simp [logOps, Command.ops, BatchOp.apply, lastIndex]

theorem Separate.length_of_mem (hseparate : Separate archive)
    {event : Bytes × Bytes} (hevent : event ∈ archive.stored) :
    event.1.length = 24 := by
  have hvalue := hseparate.kept event hevent
  exact exists_parseEventKey_iff.mp
    ((hseparate.recognised event.1 event.2 hvalue).mpr hevent)

/-- A command leaves the messages stored before it alone. -/
theorem Sound.untouched (hsound : Sound archive)
    (hapart : ∀ item ∈ items, ∀ idx ∈ item.indexes, Apart idx)
    (hroom : archive.stored.length + items.length ≤ 2 ^ 64)
    {event : Bytes × Bytes} (hevent : event ∈ archive.stored) :
    ∀ op ∈ storeOps archive.sm.repo.lastID items, op.key ≠ event.1 := by
  have hlength := hsound.length_of_mem hevent
  intro op hop heq
  rcases key_of_mem_storeOps hop with hkey | hkey | ⟨item, hitem, hidx⟩
  · exact eventsLastIDKey_ne_of_length hlength (hkey.symm.trans heq)
  · rw [heq] at hkey
    obtain ⟨old, hold, hid⟩ :=
      hsound.numbered.exists_index (List.mem_map_of_mem hevent)
    obtain ⟨new, hnew, hid'⟩ := (numberedFrom_storeKeys _ _).exists_index hkey
    rw [length_storeKeys] at hnew
    rw [List.length_map] at hold
    rw [hid, hsound.counter, ← advance_add] at hid'
    exact advance_ne (by omega) (by omega) hid'
  · exact (hapart item hitem op.key hidx).1 (heq ▸ hlength)

theorem getElem?_of_mem_storedBy {lastID : UInt64}
    (hapart : ∀ item ∈ items, ∀ idx ∈ item.indexes, Apart idx)
    (hroom : items.length ≤ 2 ^ 64) {event : Bytes × Bytes}
    (hevent : event ∈ storedBy lastID items) (db : DB) :
    (commit db (storeOps lastID items))[event.1]? = some event.2 := by
  obtain ⟨before, item, after, rfl, hkey, hvalue⟩ :=
    exists_split_of_mem_storedBy hevent
  rw [hkey, hvalue]
  apply getElem?_commit_storeOps
  · intro other hother idx hidx heq
    have hshort := (hapart other (List.mem_append_right _ hother) idx hidx).1
    rw [heq] at hshort
    exact hshort (by simp)
  · simp only [List.length_append, List.length_cons] at hroom
    omega

theorem length_of_mem_storedBy {lastID : UInt64} {event : Bytes × Bytes}
    (hevent : event ∈ storedBy lastID items) : event.1.length = 24 := by
  obtain ⟨before, item, after, -, hkey, -⟩ := exists_split_of_mem_storedBy hevent
  rw [hkey, length_eventKey]

theorem Sound.step (hsound : Sound archive)
    (hapart : ∀ item ∈ items, ∀ idx ∈ item.indexes, Apart idx)
    (hroom : archive.stored.length + items.length ≤ 2 ^ 64) :
    Sound ⟨play archive.sm [entry] [.store items],
      archive.stored ++ storedBy archive.sm.repo.lastID items⟩ := by
  have happlied : ∀ {key : Bytes}, key.length = 24 →
      (play archive.sm [entry] [.store items]).db[key]? =
        (commit archive.sm.db (storeOps archive.sm.repo.lastID items))[key]? := by
    intro key hlength
    rw [db_play_store]
    exact getElem?_insert_ne (appliedIndexKey_ne_of_length hlength) _
  refine ⟨⟨?_, ?_, ?_, ?_⟩, ?_, ?_⟩
  · intro event hevent
    rcases List.mem_append.mp hevent with hold | hnew
    · rw [happlied (hsound.length_of_mem hold), getElem?_commit_of_untouched _
        (hsound.untouched hapart hroom hold)]
      exact hsound.kept event hold
    · rw [happlied (length_of_mem_storedBy hnew)]
      exact getElem?_of_mem_storedBy hapart (by omega) hnew archive.sm.db
  · intro key value hvalue
    rw [exists_parseEventKey_iff]
    constructor
    · intro hlength
      rw [happlied hlength] at hvalue
      rcases getElem?_commit_eq_some hvalue with hbefore | hset
      · exact List.mem_append_left _ ((hsound.recognised key value hbefore).mp
          (exists_parseEventKey_iff.mpr hlength))
      · exact List.mem_append_right _ (mem_storedBy_of_set hapart hset hlength)
    · intro hevent
      rcases List.mem_append.mp hevent with hold | hnew
      · exact hsound.length_of_mem hold
      · exact length_of_mem_storedBy hnew
  · have hlast : (play archive.sm [entry] [.store items]).repo.lastID =
        advance archive.sm.repo.lastID items.length := by
      simp [play, logItems, Command.items]
    change Recorded (play archive.sm [entry] [.store items]).db _ _
    rw [hlast, Recorded, db_play_store,
      getElem?_insert_ne appliedIndexKey_ne_eventsLastIDKey]
    exact recorded_storeOps hsound.lastID hapart
  · refine .inl ?_
    change (play archive.sm [entry] [.store items]).db[appliedIndexKey]? =
      some (putUint64 entry.index)
    rw [db_play_store]
    simp
  · rw [List.map_append, map_fst_storedBy]
    apply hsound.numbered.append
    rw [List.length_map, ← hsound.counter]
    exact numberedFrom_storeKeys _ _
  · rw [List.length_append, length_storedBy, advance_add, ← hsound.counter]
    simp [play, logItems, Command.items]

end Step

/-- In every run of store commands whose indexes are neither 24 bytes long nor the
last-id key, the key spaces stay apart. -/
theorem key_spaces_stay_apart (bucketSize : TimeBucketSize)
    {entries : List Entry} {archive : Archive}
    (hmeets : Meets step Distinguishable (.fresh bucketSize) entries)
    (hrun : run step (.fresh bucketSize) entries = some archive) :
    Separate archive := by
  refine (run_invariant ?_ (sound_fresh bucketSize) hmeets hrun).toSeparate
  intro state entry next hsound hguard hstep
  obtain ⟨items, hitems, rfl⟩ := step_eq_some hstep
  obtain ⟨hapart, hroom⟩ := hguard items hitems
  exact hsound.step hapart hroom

/-- Two messages, the second with an index. -/
def twoStores (idx : Bytes) : List Entry :=
  [⟨1, encodeStoreBatch [⟨0, 7, [], [1]⟩]⟩,
    ⟨2, encodeStoreBatch [⟨0, 7, [idx], [2]⟩]⟩]

theorem key_spaces_stay_apart_twoStores :
    ∃ archive, run step (.fresh ⟨0, .inl rfl⟩) (twoStores [5]) = some archive ∧
      Separate archive := by
  have hmeets : Meets step Distinguishable (.fresh ⟨0, .inl rfl⟩) (twoStores [5]) := by
    decide +kernel
  have hfinish : ∃ archive, run step (.fresh ⟨0, .inl rfl⟩) (twoStores [5]) =
      some archive ∧ archive.stored.length = 2 :=
    exists_finish_of_any (by decide +kernel)
  obtain ⟨archive, hrun, -⟩ := hfinish
  exact ⟨archive, hrun, key_spaces_stay_apart _ hmeets hrun⟩

/-- An index that spells the event key of an earlier message overwrites it. -/
theorem index_overwrites_message :
    ∃ archive, run step (.fresh ⟨0, .inl rfl⟩) (twoStores (eventKey 0 7 1)) =
        some archive ∧
      (eventKey 0 7 1, [1]) ∈ archive.stored ∧
      archive.sm.db[eventKey 0 7 1]? = some (eventKey 0 7 2) :=
  exists_finish_of_any (by decide +kernel)

end FutureQ.KeySpace
