import FutureQ.Core.Transition
import FutureQ.Event.Journal

/-!
# Replicas at call boundaries

A replica lives through `Update` calls and restarts.  Between calls its two
in-memory counters can be read back from the database, so a restart changes
nothing (`Settled`), and consecutive calls compose to one call on the
concatenated entries (`play_play`).  `Replica` adds a ghost list of every event
key the replica ever issued.
-/

namespace FutureQ.Replica

open FutureQ.ByteOrder
open FutureQ.GoRuntime
open FutureQ.OrderedStore
open FutureQ.Transition
open FutureQ.Storage
open FutureQ.Keys
open FutureQ.Repository
open FutureQ.Commands
open FutureQ.CommandCodec
open FutureQ.StateMachine
open FutureQ.Journal

/-- The entries of one `Update` call; Dragonboat hands over at least one. -/
structure Call where
  entries : List Entry
  nonempty : entries ≠ []

/-- Neither of the two metadata keys. -/
def NotReserved (idx : Bytes) : Prop :=
  idx ≠ eventsLastIDKey ∧ idx ≠ appliedIndexKey

instance (idx : Bytes) : Decidable (NotReserved idx) :=
  inferInstanceAs (Decidable (_ ∧ _))

theorem notReserved_of_length {key : Bytes} (hlength : key.length = 24) :
    NotReserved key :=
  ⟨(eventsLastIDKey_ne_of_length hlength).symm,
    (appliedIndexKey_ne_of_length hlength).symm⟩

/-- An index that can be taken neither for metadata nor for an event key. -/
def Foreign (idx : Bytes) : Prop :=
  idx.length ≠ 24 ∧ NotReserved idx

instance (idx : Bytes) : Decidable (Foreign idx) :=
  inferInstanceAs (Decidable (_ ∧ _))

/-! ## Calls compose -/

theorem lastIndex_append (lastApplied : UInt64) (first second : List Entry) :
    lastIndex lastApplied (first ++ second) =
      lastIndex (lastIndex lastApplied first) second := by
  cases second with
  | nil => simp [lastIndex]
  | cons entry entries => simp [lastIndex, List.getLast?_cons]

theorem agreeOff_of_set_append (db : DB) (value : Bytes) (ops : List Op) :
    AgreeOff {appliedIndexKey}
      (commit (commit db [.set appliedIndexKey value]) ops) (commit db ops) := by
  apply AgreeOff.commit
  apply agreeOff_commit_hidden
  simp [BatchOp.key]

theorem commit_set_eq_of_agreeOff {left right : DB} {key : Bytes}
    (hagree : AgreeOff {key} left right) (value : Bytes) :
    commit left [.set key value] = commit right [.set key value] := by
  apply Std.ExtTreeMap.ext_getElem?
  intro other
  by_cases hother : other = key
  · subst hother
    simp [BatchOp.apply]
  · exact getElem?_commit_congr (hagree other hother) _

/-- Two calls leave the replica where one call on all the entries does. -/
theorem play_play (sm : EventStateMachine) (first second : List Entry)
    (firstCommands secondCommands : List Command) :
    play (play sm first firstCommands) second secondCommands =
      play sm (first ++ second) (firstCommands ++ secondCommands) := by
  apply EventStateMachine.ext
  · simp only [play, lastIndex_append, logOps_append, commit_append]
    apply commit_set_eq_of_agreeOff
    exact agreeOff_of_set_append _ _ _
  · simp only [play, logItems_append, List.length_append, advance_add]
  · simp only [play, lastIndex_append]

/-- The outcome of a series of calls followed by one more. -/
def Updated.andThen (earlier later : Updated) : Updated where
  sm := later.sm
  outcome := do
    let results ← earlier.outcome
    let more ← later.outcome
    return results ++ more
  deleted := earlier.deleted ++ later.deleted
  stored := earlier.stored ++ later.stored

def applyCall (earlier : Updated) (call : Call) : Except Panic Updated := do
  let later ← update .pebble .none earlier.sm call.entries
  return Updated.andThen earlier later

/-- The results, deleted keys and stored keys of a series of calls,
concatenated, and the replica after it. -/
def applyCalls (sm : EventStateMachine) (calls : List Call) :
    Except Panic Updated :=
  calls.foldlM applyCall ⟨sm, .ok [], [], []⟩

@[simp]
theorem report_sm (sm : EventStateMachine) (entries : List Entry)
    (commands : List Command) :
    (report sm entries commands).sm = play sm entries commands := rfl

theorem report_andThen_report (sm : EventStateMachine)
    (first second : List Entry) (firstCommands secondCommands : List Command) :
    Updated.andThen (report sm first firstCommands)
        (report (play sm first firstCommands) second secondCommands) =
      report sm (first ++ second) (firstCommands ++ secondCommands) := by
  simp only [Updated.andThen, report, play_play, List.map_append,
    List.flatMap_append, logKeys_append]
  rfl

theorem applyCall_eq_ok_iff {earlier updated : Updated} {call : Call} :
    applyCall earlier call = .ok updated ↔
      ∃ commands, Carries call.entries commands ∧
        updated = Updated.andThen earlier
          (report earlier.sm call.entries commands) := by
  simp only [applyCall, bind_eq_ok_iff, update_eq_ok_iff, pure,
    Except.pure, Except.ok.injEq]
  constructor
  · rintro ⟨later, ⟨commands, hcarries, rfl⟩, rfl⟩
    exact ⟨commands, hcarries, rfl⟩
  · rintro ⟨commands, hcarries, rfl⟩
    exact ⟨_, ⟨commands, hcarries, rfl⟩, rfl⟩

theorem foldlM_applyCall_report {sm : EventStateMachine} {done : List Entry}
    {doneCommands : List Command} {calls : List Call} {updated : Updated} :
    calls.foldlM applyCall (report sm done doneCommands) = .ok updated ↔
      ∃ commands, Carries (calls.flatMap Call.entries) commands ∧
        updated = report sm (done ++ calls.flatMap Call.entries)
          (doneCommands ++ commands) := by
  induction calls generalizing done doneCommands with
  | nil =>
      constructor
      · intro hrun
        cases hrun
        exact ⟨[], .nil, by simp⟩
      · rintro ⟨commands, hcarries, rfl⟩
        cases hcarries
        simp [pure, Except.pure]
  | cons call calls ih =>
      simp only [List.foldlM_cons, bind_eq_ok_iff, applyCall_eq_ok_iff,
        List.flatMap_cons, carries_append_iff]
      constructor
      · rintro ⟨later, ⟨commands, hcarries, rfl⟩, hrest⟩
        rw [report_sm, report_andThen_report] at hrest
        obtain ⟨more, hmore, rfl⟩ := ih.mp hrest
        exact ⟨commands ++ more, ⟨commands, more, hcarries, hmore, rfl⟩, by simp⟩
      · rintro ⟨both, ⟨commands, more, hcarries, hmore, rfl⟩, rfl⟩
        refine ⟨_, ⟨commands, hcarries, rfl⟩, ?_⟩
        rw [report_sm, report_andThen_report]
        exact ih.mpr ⟨more, hmore, by simp⟩

/-- A non-empty series of calls is one call on all its entries. -/
theorem applyCalls_eq_ok_iff {sm : EventStateMachine} {calls : List Call}
    (hcalls : calls ≠ []) {updated : Updated} :
    applyCalls sm calls = .ok updated ↔
      ∃ commands, Carries (calls.flatMap Call.entries) commands ∧
        updated = report sm (calls.flatMap Call.entries) commands := by
  cases calls with
  | nil => exact absurd rfl hcalls
  | cons call calls =>
      simp only [applyCalls, List.foldlM_cons, bind_eq_ok_iff, applyCall_eq_ok_iff,
        List.flatMap_cons, carries_append_iff]
      constructor
      · rintro ⟨later, ⟨commands, hcarries, rfl⟩, hrest⟩
        obtain ⟨more, hmore, rfl⟩ := foldlM_applyCall_report.mp hrest
        exact ⟨commands ++ more, ⟨commands, more, hcarries, hmore, rfl⟩, rfl⟩
      · rintro ⟨both, ⟨commands, more, hcarries, hmore, rfl⟩, rfl⟩
        exact ⟨_, ⟨commands, hcarries, rfl⟩,
          foldlM_applyCall_report.mpr ⟨more, hmore, rfl⟩⟩

/-! ## Restarts between calls -/

/-- A restart would bring back exactly this replica. -/
def Settled (sm : EventStateMachine) : Prop :=
  start .pebble sm.repo.bucketSize sm.db = .ok sm

theorem start_eq_ok_iff {bucketSize : TimeBucketSize} {db : DB}
    {sm : EventStateMachine} :
    start .pebble bucketSize db = .ok sm ↔
      sm.db = db ∧ sm.repo.bucketSize = bucketSize ∧
        readCounter .pebble db eventsLastIDKey 0 = .ok sm.repo.lastID ∧
        readCounter .pebble db appliedIndexKey 0 = .ok sm.lastApplied := by
  simp only [start, newEventRepository, open_, bind_eq_ok_iff, pure_eq_ok_iff]
  constructor
  · rintro ⟨repo, ⟨lastID, hlastID, rfl⟩, applied, happlied, rfl⟩
    exact ⟨rfl, rfl, hlastID, happlied⟩
  · rintro ⟨rfl, rfl, hlastID, happlied⟩
    exact ⟨_, ⟨_, hlastID, rfl⟩, _, happlied, rfl⟩

/-- The first start of a node. -/
theorem start_empty (bucketSize : TimeBucketSize) :
    start .pebble bucketSize ∅ = .ok ⟨∅, ⟨0, bucketSize⟩, 0⟩ := by
  apply start_eq_ok_iff.mpr
  exact ⟨rfl, rfl, readCounter_of_none (by simp), readCounter_of_none (by simp)⟩

theorem settled_iff {sm : EventStateMachine} :
    Settled sm ↔
      readCounter .pebble sm.db eventsLastIDKey 0 = .ok sm.repo.lastID ∧
        readCounter .pebble sm.db appliedIndexKey 0 = .ok sm.lastApplied := by
  simp [Settled, start_eq_ok_iff]

theorem start_settled {bucketSize : TimeBucketSize} {db : DB}
    {sm : EventStateMachine} (hstart : start .pebble bucketSize db = .ok sm) :
    Settled sm := by
  obtain ⟨rfl, rfl, hlastID, happlied⟩ := start_eq_ok_iff.mp hstart
  exact settled_iff.mpr ⟨hlastID, happlied⟩

/-- The applied index is always durable after a call. -/
theorem readCounter_appliedIndex_play (sm : EventStateMachine)
    (entries : List Entry) (commands : List Command) :
    readCounter .pebble (play sm entries commands).db appliedIndexKey 0 =
      .ok (play sm entries commands).lastApplied := by
  apply readCounter_of_some
  simp [play, commit_append, BatchOp.apply]

theorem readCounter_commit_eventOps (db : DB) (nextID : UInt64)
    {key : Bytes} (hkey : key ≠ eventsLastIDKey) (data : Bytes)
    {indexes : List Bytes} (hindexes : ∀ idx ∈ indexes, idx ≠ eventsLastIDKey) :
    readCounter .pebble (commit db (eventOps nextID key data indexes))
      eventsLastIDKey 0 = .ok nextID := by
  apply readCounter_of_some
  rw [eventOps, commit_cons, getElem?_commit_of_untouched]
  · simp [BatchOp.apply]
  · intro op hop
    rcases List.mem_cons.mp hop with rfl | hop
    · exact hkey
    · obtain ⟨idx, hidx, rfl⟩ := List.mem_map.mp hop
      exact hindexes idx hidx

theorem readCounter_commit_storeOps {db : DB} {lastID : UInt64}
    {items : List StoreBatchItem}
    (hrecord : readCounter .pebble db eventsLastIDKey 0 = .ok lastID)
    (hindexes : ∀ item ∈ items, ∀ idx ∈ item.indexes, idx ≠ eventsLastIDKey) :
    readCounter .pebble (commit db (storeOps lastID items)) eventsLastIDKey 0 =
      .ok (advance lastID items.length) := by
  induction items generalizing db lastID with
  | nil => simpa [storeOps] using hrecord
  | cons item items ih =>
      rw [storeOps, commit_append, List.length_cons, advance_succ]
      apply ih
      · exact readCounter_commit_eventOps db _ (eventsLastIDKey_ne_eventKey _ _ _).symm
          _ (hindexes item List.mem_cons_self)
      · exact fun other hother => hindexes other (List.mem_cons_of_mem _ hother)

/-- Deleting event keys leaves the counter record alone. -/
theorem readCounter_commit_delete {db : DB} {lastID : UInt64} {keys : List Bytes}
    (hrecord : readCounter .pebble db eventsLastIDKey 0 = .ok lastID)
    (hkeys : ∀ key ∈ keys, key.length = 24) :
    readCounter .pebble (commit db (keys.map BatchOp.delete)) eventsLastIDKey 0 =
      .ok lastID := by
  rw [← hrecord]
  exact readCounter_congr (getElem?_lastID_delete hkeys db) 0

theorem readCounter_commit_logOps {db : DB} {lastID : UInt64}
    {commands : List Command}
    (hrecord : readCounter .pebble db eventsLastIDKey 0 = .ok lastID)
    (hsound : ∀ command ∈ commands, command.Sound)
    (hindexes : ∀ item ∈ logItems commands, ∀ idx ∈ item.indexes,
      idx ≠ eventsLastIDKey) :
    readCounter .pebble (commit db (logOps lastID commands)) eventsLastIDKey 0 =
      .ok (advance lastID (logItems commands).length) := by
  induction commands generalizing db lastID with
  | nil => simpa [logOps, logItems] using hrecord
  | cons command commands ih =>
      obtain ⟨hhead, htail⟩ := List.forall_mem_cons.mp hsound
      simp only [logItems, List.flatMap_cons, List.mem_append] at hindexes
      rw [logOps, commit_append]
      simp only [logItems, List.flatMap_cons, List.length_append, advance_add]
      refine ih ?_ htail fun item hitem => hindexes item (Or.inr hitem)
      cases command with
      | store items =>
          exact readCounter_commit_storeOps hrecord
            fun item hitem => hindexes item (Or.inl hitem)
      | delete keys =>
          simpa [Command.ops, Command.items] using
            readCounter_commit_delete hrecord hhead
      | skip => simpa [Command.ops, Command.items] using hrecord

/-- A call keeps the in-memory counters and their records in step. -/
theorem settled_play {sm : EventStateMachine} {entries : List Entry}
    {commands : List Command} (hsettled : Settled sm)
    (hcarries : Carries entries commands)
    (hindexes : IndexesMeet NotReserved entries) :
    Settled (play sm entries commands) := by
  rw [settled_iff] at hsettled ⊢
  refine ⟨?_, readCounter_appliedIndex_play sm entries commands⟩
  have hrecord := readCounter_commit_logOps hsettled.1 hcarries.sound
    fun item hitem idx hidx =>
      (hcarries.indexesMeet_iff.mp hindexes item hitem idx hidx).1
  refine Eq.trans ?_ hrecord
  apply readCounter_congr
  rw [play, commit_append, commit_cons, commit_nil]
  exact getElem?_apply_ne appliedIndexKey_ne_eventsLastIDKey

/-! ## Runs -/

/-- A replica together with the event keys it ever issued. -/
structure Node where
  sm : EventStateMachine
  issued : List Bytes

inductive Action where
  | update (call : Call)
  | restart

/-- The first start of a node, over an empty database. -/
def Node.fresh (bucketSize : TimeBucketSize) : Node :=
  ⟨⟨∅, ⟨0, bucketSize⟩, 0⟩, []⟩

def Node.reboot (node : Node) : Option Node :=
  match start .pebble node.sm.repo.bucketSize node.sm.db with
  | .error _ => none
  | .ok sm => some { node with sm }

/-- A panic in `Update` takes the process down before anything is committed. -/
def step (node : Node) : Action → Option Node
  | .update call =>
      match update .pebble .none node.sm call.entries with
      | .error _ => node.reboot
      | .ok updated => some ⟨updated.sm, node.issued ++ updated.stored⟩
  | .restart => node.reboot

theorem reboot_of_settled {node : Node} (hsettled : Settled node.sm) :
    node.reboot = some node := by
  have hstart : start .pebble node.sm.repo.bucketSize node.sm.db = .ok node.sm :=
    hsettled
  rw [Node.reboot, hstart]

/-- A step is a call, or the start of a new process on the same database. -/
theorem step_cases {node next : Node} {action : Action}
    (hstep : step node action = some next) :
    (∃ call commands, action = .update call ∧ Carries call.entries commands ∧
      next = ⟨play node.sm call.entries commands,
        node.issued ++ logKeys node.sm.repo.lastID commands⟩) ∨
    (next.issued = node.issued ∧
      start .pebble node.sm.repo.bucketSize node.sm.db = .ok next.sm) := by
  have hreboot : node.reboot = some next →
      next.issued = node.issued ∧
        start .pebble node.sm.repo.bucketSize node.sm.db = .ok next.sm := by
    intro h
    rw [Node.reboot] at h
    split at h
    · cases h
    · rename_i hstart
      cases h
      exact ⟨rfl, hstart⟩
  cases action with
  | restart => exact Or.inr (hreboot hstep)
  | update call =>
      cases hupdate : update .pebble .none node.sm call.entries with
      | error reason =>
          rw [step, hupdate] at hstep
          exact Or.inr (hreboot hstep)
      | ok updated =>
          rw [step, hupdate] at hstep
          obtain ⟨commands, hcarries, rfl⟩ := update_eq_ok_iff.mp hupdate
          exact Or.inl ⟨call, commands, rfl, hcarries, (Option.some.inj hstep).symm⟩

end FutureQ.Replica
