import FutureQ.Event.Failures

/-!
# One log on two engines

Replicas of a cluster may keep their records in Pebble or in bbolt.  `Update`
fills the same batch on both; the engines differ in the keys that a commit
accepts, and the only keys a log chooses freely are the indexes.
-/

namespace FutureQ.Engines

open FutureQ.ByteOrder
open FutureQ.GoRuntime
open FutureQ.OrderedStore
open FutureQ.Storage
open FutureQ.Keys
open FutureQ.Repository
open FutureQ.Commands
open FutureQ.CommandCodec
open FutureQ.StateMachine
open FutureQ.Journal

/-- A key that bbolt's `Put` accepts. -/
def Storable (key : Bytes) : Prop := key ≠ [] ∧ key.length ≤ 32768

instance (key : Bytes) : Decidable (Storable key) :=
  inferInstanceAs (Decidable (_ ∧ _))

/-- The two engines end a call alike: both report success or both an error, and
both leave the same contents. -/
def Agree (sm : EventStateMachine) (entries : List Entry) : Prop :=
  ∃ bolt pebble,
    update .bolt .none sm entries = .ok bolt ∧
    update .pebble .none sm entries = .ok pebble ∧
    bolt.outcome.isOk = pebble.outcome.isOk ∧ bolt.sm.db = pebble.sm.db

/-! ## What bbolt admits -/

theorem admits_bolt_set_iff {key value : Bytes} :
    Engine.bolt.admits (.set key value) = .ok () ↔ Storable key := by
  rw [Engine.admits, Storable]
  by_cases hempty : key = []
  · simp [hempty]
  · by_cases hlong : 32768 < key.length
    · simp [hempty, hlong]
    · simp [hempty, hlong, not_lt.mp hlong]

theorem storable_of_length {key : Bytes} (hpos : 0 < key.length)
    (hshort : key.length ≤ 32768) : Storable key :=
  ⟨List.length_pos_iff.mp hpos, hshort⟩

/-- Every index of a log is written. -/
theorem exists_set_index (lastID : UInt64) {commands : List Command}
    {item : StoreBatchItem} (hitem : item ∈ logItems commands) {idx : Bytes}
    (hidx : idx ∈ item.indexes) :
    ∃ key, BatchOp.set idx key ∈ logOps lastID commands := by
  have hstore : ∀ (items : List StoreBatchItem) (lastID : UInt64), item ∈ items →
      ∃ key, BatchOp.set idx key ∈ storeOps lastID items := by
    intro items
    induction items with
    | nil => exact fun _ hmem => absurd hmem List.not_mem_nil
    | cons head items ih =>
        intro lastID hmem
        rcases List.mem_cons.mp hmem with rfl | hlater
        · exact ⟨_, List.mem_append_left _ (List.mem_cons_of_mem _
            (List.mem_cons_of_mem _ (List.mem_map_of_mem hidx)))⟩
        · obtain ⟨key, hkey⟩ := ih (lastID + 1) hlater
          exact ⟨key, List.mem_append_right _ hkey⟩
  induction commands generalizing lastID with
  | nil => exact absurd hitem List.not_mem_nil
  | cons command commands ih =>
      rw [logItems, List.flatMap_cons, List.mem_append] at hitem
      rcases hitem with hhead | hlater
      · cases command with
        | store items =>
            obtain ⟨key, hkey⟩ := hstore items lastID hhead
            exact ⟨key, List.mem_append_left _ hkey⟩
        | delete keys => exact absurd hhead List.not_mem_nil
        | skip => exact absurd hhead List.not_mem_nil
      · obtain ⟨key, hkey⟩ := ih _ hlater
        exact ⟨key, List.mem_append_right _ hkey⟩

/-- bbolt takes the batch of a log exactly when it takes its indexes: the
counter record, the event keys and the deletes always pass. -/
theorem forM_admits_bolt_logOps {lastID : UInt64} {commands : List Command} :
    (logOps lastID commands).forM Engine.bolt.admits = .ok () ↔
      ∀ item ∈ logItems commands, ∀ idx ∈ item.indexes, Storable idx := by
  rw [forM_eq_ok_iff]
  constructor
  · intro hadmits item hitem idx hidx
    obtain ⟨key, hset⟩ := exists_set_index lastID hitem hidx
    exact admits_bolt_set_iff.mp (hadmits _ hset)
  · intro hindexes op hop
    cases op with
    | delete key => rfl
    | set key value =>
        rw [admits_bolt_set_iff]
        rcases mem_logOps hop with ⟨id, rfl, -⟩ | ⟨hkey, -⟩ | ⟨-, item, hitem, hidx⟩
        · have hlength := length_eventsLastIDKey
          exact storable_of_length (by omega) (by omega)
        · have hlength := length_of_mem_logKeys hkey
          exact storable_of_length (by omega) (by omega)
        · exact hindexes item hitem key hidx

/-! ## One call on either engine -/

section Call

variable {entries : List Entry} {commands : List Command}

/-- A call commits the writes of its log in order, or reports why the engine
refused them and leaves the contents alone. -/
theorem exists_update (hcarries : Carries entries commands)
    (sm : EventStateMachine) (engine : Engine) :
    ∃ updated, update engine .none sm entries = .ok updated ∧
      (((logOps sm.repo.lastID commands).forM engine.admits = .ok () ∧
          updated = report sm entries commands) ∨
        ((logOps sm.repo.lastID commands).forM engine.admits ≠ .ok () ∧
          (∃ err, updated.outcome = .error err) ∧ updated.sm.db = sm.db)) := by
  rw [update, foldlM_applyNext hcarries]
  simp only [ok_bind, set_none, commit_push (admits_appliedIndex engine _)]
  cases hcommit : engine.commit .none sm.db
      (newBatch.push (logOps sm.repo.lastID commands)) with
  | ok db =>
      obtain ⟨-, hadmits, rfl⟩ := commit_eq_ok_iff.mp hcommit
      refine ⟨_, rfl, .inl ⟨forM_eq_ok_iff.mpr ?_, ?_⟩⟩
      · simpa [Batch.push, newBatch] using hadmits
      · simp [report, play, commit_append, Batch.push, newBatch]
  | error err =>
      refine ⟨_, rfl, .inr ⟨fun hadmits => ?_, ⟨err, rfl⟩, rfl⟩⟩
      have hok : engine.commit .none sm.db
          (newBatch.push (logOps sm.repo.lastID commands)) = .ok _ :=
        commit_eq_ok_iff.mpr ⟨rfl, forM_eq_ok_iff.mp hadmits, rfl⟩
      rw [hcommit] at hok
      cases hok

/-- Pebble takes every log. -/
theorem update_pebble_isOk {sm : EventStateMachine} {pebble : Updated}
    (hcarries : Carries entries commands)
    (hpebble : update .pebble .none sm entries = .ok pebble) :
    pebble = report sm entries commands := by
  rw [update_eq hcarries] at hpebble
  exact (Except.ok.inj hpebble).symm

/-- On entries that decode, the engines agree exactly when bbolt takes every
index; a call that fails leaves the contents alone on either engine, and one
that succeeds plays its writes in order. -/
theorem engines_agree_iff (sm : EventStateMachine)
    (hreturns : ∀ entry ∈ entries, Returns (unmarshalStoreBatchCmd entry.cmd) ∧
      Returns (unmarshalDeleteBatchCmd entry.cmd)) :
    (Agree sm entries ↔ IndexesMeet Storable entries) ∧
      ∀ engine updated, update engine .none sm entries = .ok updated →
        (∀ err, updated.outcome = .error err → updated.sm.db = sm.db) ∧
        (∀ results, updated.outcome = .ok results →
          ∃ commands, Carries entries commands ∧
            updated.sm.db = (play sm entries commands).db) := by
  obtain ⟨commands, hcarries⟩ := exists_carries fun entry hentry =>
    exists_decodeCommand (hreturns entry hentry).1 (hreturns entry hentry).2
  refine ⟨?_, ?_⟩
  · rw [hcarries.indexesMeet_iff, ← forM_admits_bolt_logOps]
    obtain ⟨bolt, hbolt, hcases⟩ := exists_update hcarries sm .bolt
    constructor
    · rintro ⟨other, pebble, hother, hpebble, hok, -⟩
      rw [hbolt, Except.ok.injEq] at hother
      subst hother
      obtain ⟨hadmits, -⟩ | ⟨-, ⟨err, herr⟩, -⟩ := hcases
      · exact hadmits
      · rw [herr, update_pebble_isOk hcarries hpebble] at hok
        cases hok
    · intro hadmits
      obtain ⟨-, rfl⟩ | ⟨hrefused, -⟩ := hcases
      · exact ⟨_, _, hbolt, update_eq hcarries sm, rfl, rfl⟩
      · exact absurd hadmits hrefused
  · intro engine updated hupdate
    obtain ⟨other, hother, hcases⟩ := exists_update hcarries sm engine
    rw [hupdate, Except.ok.injEq] at hother
    subst hother
    obtain ⟨-, rfl⟩ | ⟨-, ⟨err, herr⟩, hdb⟩ := hcases
    · refine ⟨fun err herr => ?_, fun _ _ => ⟨commands, hcarries, rfl⟩⟩
      cases herr
    · refine ⟨fun _ _ => hdb, fun results hok => ?_⟩
      rw [herr] at hok
      cases hok

end Call

/-! ## An empty index -/

def emptyReplica : EventStateMachine := ⟨∅, ⟨0, ⟨0, valid_zero⟩⟩, 0⟩

/-- A store command whose only index is the empty byte string. -/
def emptyIndex : List Entry := [⟨1, encodeStoreBatch [⟨5, 7, [[]], [1]⟩]⟩]

def oneIndex : List Entry := [⟨1, encodeStoreBatch [⟨5, 7, [[3]], [1]⟩]⟩]

/-- Pebble stores the message and bbolt refuses the batch. -/
theorem empty_index_splits_engines :
    (∃ items, unmarshalStoreBatchCmd (encodeStoreBatch [⟨5, 7, [[]], [1]⟩]) =
        .ok items) ∧
      (∃ bolt, update .bolt .none emptyReplica emptyIndex = .ok bolt ∧
        bolt.outcome = .error .keyRequired ∧ bolt.sm.db = ∅) ∧
      (∃ pebble, update .pebble .none emptyReplica emptyIndex = .ok pebble ∧
        pebble.outcome = .ok [⟨1⟩] ∧
        pebble.sm.db[([] : Bytes)]? = some (eventKey 5 7 1)) ∧
      ¬ Agree emptyReplica emptyIndex := by
  have hbolt : ∃ bolt, update .bolt .none emptyReplica emptyIndex = .ok bolt ∧
      (bolt.outcome = .error .keyRequired ∧ bolt.sm.db = ∅) := by
    apply exists_ok_of_any
    decide +kernel
  have hpebble : ∃ pebble, update .pebble .none emptyReplica emptyIndex = .ok pebble ∧
      (pebble.outcome = .ok [⟨1⟩] ∧
        pebble.sm.db[([] : Bytes)]? = some (eventKey 5 7 1)) := by
    apply exists_ok_of_any
    decide +kernel
  refine ⟨⟨_, unmarshalStoreBatchCmd_encode (by decide) (by decide)⟩, hbolt, hpebble, ?_⟩
  rintro ⟨bolt, pebble, hfirst, hsecond, hok, -⟩
  obtain ⟨_, hbolt, herr, -⟩ := hbolt
  obtain ⟨_, hpebble, hresults, -⟩ := hpebble
  rw [hfirst, Except.ok.injEq] at hbolt
  rw [hsecond, Except.ok.injEq] at hpebble
  rw [hbolt, hpebble, herr, hresults] at hok
  cases hok

theorem engines_agree_iff_oneIndex :
    IndexesMeet Storable oneIndex ∧ Agree emptyReplica oneIndex := by
  have hindexes : IndexesMeet Storable oneIndex := by decide +kernel
  exact ⟨hindexes, (engines_agree_iff emptyReplica (by decide +kernel)).1.mpr hindexes⟩

end FutureQ.Engines
