import FutureQ.Broker.Deleter

/-!
# Two delete backends

The direct backend deletes whatever bytes it is given; the Raft backend sends
the keys through a codec of fixed width.  Delivery tags come unchecked from
clients, so the two can be asked to delete the same list of arbitrary byte
strings.
-/

namespace FutureQ.Backends

open FutureQ.ByteOrder
open FutureQ.OrderedStore
open FutureQ.Storage
open FutureQ.Repository
open FutureQ.StateMachine
open FutureQ.Journal
open FutureQ.Deleter

/-- A slice of keys that fits in memory. -/
structure KeySlice where
  keys : List Bytes
  fits : keys.length ≤ pendingCapacity

/-- Both backends succeed, leave the same records apart from the applied index
and keep the last ID, or both report an error and leave the database alone. -/
inductive Agree (db : DB) (deletion : Deletion) : Except StorageError DB → Prop where
  | deleted (left : DB) (haccepted : deletion.accepted = true)
      (hsame : AgreeOff {appliedIndexKey} left deletion.sm.db)
      (hdirect : left[eventsLastIDKey]? = db[eventsLastIDKey]?)
      (hraft : deletion.sm.db[eventsLastIDKey]? = db[eventsLastIDKey]?) :
      Agree db deletion (.ok left)
  | refused (err : StorageError) (hrefused : deletion.accepted = false)
      (hkept : deletion.sm.db = db) : Agree db deletion (.error err)

/-- The backends agree exactly on batches of 24-byte keys. -/
theorem backends_agree_iff (sm : EventStateMachine) (slice : KeySlice)
    (index : UInt64) :
    ∃ deletion, raftDeleteKeys sm slice.keys (.accepted index) = some deletion ∧
      (Agree sm.db deletion (directDeleteKeys .pebble .none sm.db slice.keys) ↔
        ∀ key ∈ slice.keys, key.length = 24) := by
  obtain ⟨keys, hfits⟩ := slice
  rw [directDeleteKeys_none]
  by_cases hkeys : ∀ key ∈ keys, key.length = 24
  · refine ⟨_, raftDeleteKeys_of_lengths hkeys hfits sm (.accepted index), ?_⟩
    refine iff_of_true (.deleted _ rfl ?_ (getElem?_lastID_delete hkeys sm.db) ?_) hkeys
    · rw [db_afterDelete]
      exact (agreeOff_commit_hidden _ (by simp [BatchOp.key])).symm
    · rw [db_afterDelete, getElem?_commit_of_untouched]
      · exact getElem?_lastID_delete hkeys sm.db
      · intro op hop
        rw [List.mem_singleton.mp hop]
        exact appliedIndexKey_ne_eventsLastIDKey
  · have hbad : ∃ key ∈ keys, key.length ≠ 24 := by
      push Not at hkeys
      exact hkeys
    refine ⟨_, raftDeleteKeys_of_bad hbad sm (.accepted index), ?_⟩
    refine iff_of_false ?_ hkeys
    intro hagree
    cases hagree with
    | deleted left haccepted hsame hdirect hraft => cases haccepted

/-- A delivery tag that names the last-id record removes it on a standalone
broker and is refused on a Raft node. -/
theorem direct_backend_removes_last_id :
    ∃ (left : DB) (deletion : Deletion),
      directDeleteKeys .pebble .none
        ((∅ : DB).insert eventsLastIDKey (putUint64 5)) [eventsLastIDKey] = .ok left ∧
      left[eventsLastIDKey]? = none ∧
      raftDeleteKeys ⟨(∅ : DB).insert eventsLastIDKey (putUint64 5),
        ⟨5, ⟨0, .inl rfl⟩⟩, 0⟩ [eventsLastIDKey] (.accepted 1) = some deletion ∧
      deletion.accepted = false ∧
      deletion.sm.db[eventsLastIDKey]? = some (putUint64 5) := by
  refine ⟨_, _, directDeleteKeys_none _ _, by decide +kernel,
    raftDeleteKeys_of_bad ⟨_, List.mem_singleton_self _, ?_⟩ _ _, rfl,
    by decide +kernel⟩
  rw [length_eventsLastIDKey]
  decide

end FutureQ.Backends
