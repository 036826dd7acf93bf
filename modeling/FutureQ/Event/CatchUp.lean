import FutureQ.Event.Replica
import FutureQ.Event.Snapshot

/-!
# Catching up from a snapshot

A replica that lags behind receives the snapshot of another replica and then
the entries behind it.  Recovery restores the database and the applied index,
but `RecoverFromSnapshot` has no access to the repository's ID counter, so the
two replicas number later messages alike only if their counters agreed before.
-/

namespace FutureQ.CatchUp

open FutureQ.ByteOrder
open FutureQ.GoRuntime
open FutureQ.OrderedStore
open FutureQ.Transition
open FutureQ.Storage
open FutureQ.Keys
open FutureQ.Repository
open FutureQ.Commands
open FutureQ.CommandCodec
open FutureQ.StateMachine
open FutureQ.Journal
open FutureQ.Replica
open FutureQ.Snapshot

/-! ## What a replica's database looks like -/

/-- A database that can be saved, and whose applied index is on record. -/
structure Durable (db : DB) (lastApplied : UInt64) : Prop where
  bounded : Bounded db
  applied : readCounter .pebble db appliedIndexKey 0 = .ok lastApplied

theorem bounded_commit {db : DB} {ops : List Op} (hbounded : Bounded db)
    (hops : ∀ key value : Bytes, BatchOp.set key value ∈ ops →
      key.length < 2 ^ 32 ∧ value.length < 2 ^ 32) :
    Bounded (commit db ops) := by
  intro key value hvalue
  rcases getElem?_commit_eq_some hvalue with hbefore | hset
  · exact hbounded key value hbefore
  · exact hops key value hset

theorem bounded_logOps {commands : List Command}
    (hsound : ∀ command ∈ commands, command.Sound) {lastID : UInt64}
    {key value : Bytes} (hset : BatchOp.set key value ∈ logOps lastID commands) :
    key.length < 2 ^ 32 ∧ value.length < 2 ^ 32 := by
  have hfits : ∀ item ∈ logItems commands, Fits item := by
    intro item hitem
    obtain ⟨command, hcommand, hmem⟩ := List.mem_flatMap.mp hitem
    cases command with
    | store items => exact hsound _ hcommand item hmem
    | delete keys => simp [Command.items] at hmem
    | skip => simp [Command.items] at hmem
  rcases mem_logOps hset with ⟨id, rfl, rfl⟩ | ⟨hkey, item, hitem, rfl⟩ |
    ⟨hvalue, item, hitem, hidx⟩
  · rw [length_eventsLastIDKey, length_putUint64]
    omega
  · have hmsg := (hfits item hitem).msgLength
    rw [length_of_mem_logKeys hkey]
    omega
  · have hindex := (hfits item hitem).indexLength key hidx
    rw [length_of_mem_logKeys hvalue]
    omega

theorem durable_play {sm : EventStateMachine}
    (hdurable : Durable sm.db sm.lastApplied) {entries : List Entry}
    {commands : List Command} (hcarries : Carries entries commands) :
    Durable (play sm entries commands).db (play sm entries commands).lastApplied where
  bounded := by
    apply bounded_commit hdurable.bounded
    intro key value hset
    rcases List.mem_append.mp hset with hset | hset
    · exact bounded_logOps hcarries.sound hset
    · rw [List.mem_singleton, BatchOp.set.injEq] at hset
      rw [hset.1, hset.2, length_appliedIndexKey, length_putUint64]
      omega
  applied := readCounter_appliedIndex_play sm entries commands

theorem durable_step {node next : Node} {action : Action}
    (hdurable : Durable node.sm.db node.sm.lastApplied)
    (hstep : step node action = some next) :
    Durable next.sm.db next.sm.lastApplied := by
  rcases step_cases hstep with ⟨call, commands, -, hcarries, rfl⟩ | ⟨-, hstart⟩
  · exact durable_play hdurable hcarries
  · obtain ⟨hdb, -, -, happlied⟩ := start_eq_ok_iff.mp hstart
    exact ⟨hdb ▸ hdurable.bounded, hdb ▸ happlied⟩

theorem durable_run {bucketSize : TimeBucketSize} {actions : List Action}
    {node : Node} (hrun : run step (Node.fresh bucketSize) actions = some node) :
    Durable node.sm.db node.sm.lastApplied := by
  refine run_preserves (fun _ _ _ => durable_step) ⟨?_, ?_⟩ hrun
  · intro key value hvalue
    simp [Node.fresh] at hvalue
  · exact (settled_iff.mp (start_settled (start_empty bucketSize))).2

/-- A record that can be read has a value whatever stands in for its absence. -/
theorem exists_readCounter {db : DB} {key : Bytes} {absent value : UInt64}
    (hread : readCounter .pebble db key absent = .ok value) (other : UInt64) :
    ∃ read, readCounter .pebble db key other = .ok read := by
  cases hrecord : db[key]? with
  | none => exact ⟨other, readCounter_of_none hrecord⟩
  | some record =>
      refine ⟨value, ?_⟩
      rw [readCounter, get_of_some hrecord] at hread ⊢
      exact hread

/-! ## Catching up -/

theorem logOps_eq_of_no_items {commands : List Command}
    (hnone : logItems commands = []) (left right : UInt64) :
    logOps left commands = logOps right commands := by
  induction commands generalizing left right with
  | nil => rfl
  | cons command commands ih =>
      have hboth : command.items = [] ∧ logItems commands = [] := by
        simpa [logItems] using hnone
      have hops : command.ops left = command.ops right := by
        cases command with
        | store items =>
            have hitems : items = [] := hboth.1
            simp [Command.ops, hitems, storeOps]
        | delete keys => rfl
        | skip => rfl
      rw [logOps, logOps, hops, ih hboth.2 _ (advance right command.items.length)]

theorem logKeys_eq_iff {commands : List Command} {left right : UInt64} :
    logKeys left commands = logKeys right commands ↔
      left = right ∨ logItems commands = [] := by
  constructor
  · intro hkeys
    cases hitems : logItems commands with
    | nil => exact Or.inr rfl
    | cons item items =>
        rw [logKeys, logKeys, hitems, storeKeys, storeKeys, List.cons.injEq] at hkeys
        have hids := congrArg eventIDOf hkeys.1
        rw [eventIDOf_eventKey, eventIDOf_eventKey] at hids
        exact Or.inl ((UInt64.add_left_inj 1).mp hids)
  · rintro (rfl | hnone)
    · rfl
    · simp [logKeys, hnone, storeKeys]

/-- Two replicas over the same database report and write the same for a log
when their counters agree or the log stores nothing. -/
theorem report_db_eq {left right : EventStateMachine} (hdb : left.db = right.db)
    {entries : List Entry} (hentries : entries ≠ []) {commands : List Command}
    (hagree : left.repo.lastID = right.repo.lastID ∨ logItems commands = []) :
    (report left entries commands).sm.db = (report right entries commands).sm.db := by
  have hops : logOps left.repo.lastID commands = logOps right.repo.lastID commands := by
    rcases hagree with hlastID | hnone
    · rw [hlastID]
    · exact logOps_eq_of_no_items hnone _ _
  have hindex : lastIndex left.lastApplied entries =
      lastIndex right.lastApplied entries := by
    cases entries with
    | nil => exact absurd rfl hentries
    | cons entry entries => rw [lastIndex_cons, lastIndex_cons]
  simp only [report_sm, play, hdb, hops, hindex]

theorem flatMap_entries_ne_nil {calls : List Call} (hcalls : calls ≠ []) :
    calls.flatMap Call.entries ≠ [] := by
  cases calls with
  | nil => exact absurd rfl hcalls
  | cons call calls => simp [call.nonempty]

/-- A replica that recovered the snapshot of another one ends with its database
and its results, and issues its keys, exactly when the two ID counters were
equal before the recovery or nothing more is stored. -/
theorem catch_up_agrees_iff {bucketSize : TimeBucketSize} {actions : List Action}
    {source : Node}
    (hrun : run step (Node.fresh bucketSize) actions = some source)
    (target : EventStateMachine) {calls : List Call} {updated : Updated}
    (hcalls : applyCalls source.sm calls = .ok updated) :
    ∃ snapshot recovered caughtUp,
      saveSnapshot none (fun _ => false) (prepareSnapshot source.sm) source.sm.db =
        .ok snapshot ∧
      recoverFromSnapshot .pebble none .none .none target ⟨snapshot, false⟩ =
        (recovered, .ok ()) ∧
      applyCalls recovered calls = .ok caughtUp ∧
      ((caughtUp.sm.db = updated.sm.db ∧ caughtUp.outcome = updated.outcome ∧
          caughtUp.stored = updated.stored) ↔
        (target.repo.lastID = source.sm.repo.lastID ∨
          StoresNothing (calls.flatMap Call.entries))) := by
  have hdurable := durable_run hrun
  obtain ⟨lastApplied, happlied⟩ :=
    exists_readCounter hdurable.applied target.lastApplied
  have hrecover := recoverFromSnapshot_serialise hdurable.bounded happlied
  by_cases hnil : calls = []
  · subst hnil
    cases hcalls
    refine ⟨_, _, _, saveSnapshot_eq _ _, hrecover, rfl, ?_⟩
    simp [StoresNothing]
  · obtain ⟨commands, hcarries, rfl⟩ := (applyCalls_eq_ok_iff hnil).mp hcalls
    refine ⟨_, _, _, saveSnapshot_eq _ _, hrecover,
      (applyCalls_eq_ok_iff hnil).mpr ⟨commands, hcarries, rfl⟩, ?_⟩
    rw [hcarries.storesNothing_iff]
    constructor
    · intro hagree
      exact logKeys_eq_iff.mp hagree.2.2
    · intro hcounters
      have hdb : (EventStateMachine.mk source.sm.db target.repo lastApplied).db =
          source.sm.db := rfl
      exact ⟨report_db_eq hdb (flatMap_entries_ne_nil hnil) hcounters, rfl,
        logKeys_eq_iff.mpr hcounters⟩

/-- One message of topic 7 due in bucket 5, as the entry with this index. -/
def storeAt (index : UInt64) : Call where
  entries := [⟨index, encodeStoreBatch [⟨5, 7, [], [1]⟩]⟩]
  nonempty := List.cons_ne_nil _ _

theorem carries_storeAt (index : UInt64) :
    Carries (storeAt index).entries [.store [⟨5, 7, [], [1]⟩]] := by
  refine .cons ?_ .nil
  rw [decodeCommand_eq_store_iff]
  exact unmarshalStoreBatchCmd_encode (by decide) (by decide +kernel)

/-- A node that stored one message. -/
def nodeWithOne : Node :=
  ⟨play (Node.fresh ⟨0, valid_zero⟩).sm (storeAt 1).entries
    [.store [⟨5, 7, [], [1]⟩]], [eventKey 5 7 1]⟩

theorem run_nodeWithOne :
    run step (Node.fresh ⟨0, Or.inl rfl⟩) [.update (storeAt 1)] =
      some nodeWithOne := by
  rw [run_cons, step, update_eq (carries_storeAt 1)]
  rfl

/-- The new replica with the recovered database, whose counter is still 0. -/
def caughtUpWithOne : EventStateMachine :=
  ⟨nodeWithOne.sm.db, ⟨0, ⟨0, valid_zero⟩⟩, 1⟩

theorem recover_nodeWithOne :
    recoverFromSnapshot .pebble none .none .none (Node.fresh ⟨0, Or.inl rfl⟩).sm
      ⟨serialise nodeWithOne.sm.db, false⟩ = (caughtUpWithOne, .ok ()) := by
  apply recoverFromSnapshot_serialise (durable_run run_nodeWithOne).bounded
  exact (durable_run run_nodeWithOne).applied

/-- A new replica recovers the snapshot of a node that stored one message; both
then store one more, the one as message 1 again, the other as message 2. -/
theorem catch_up_diverges :
    ∃ source updated snapshot recovered caughtUp,
      run step (Node.fresh ⟨0, Or.inl rfl⟩) [.update (storeAt 1)] = some source ∧
      applyCalls source.sm [storeAt 2] = .ok updated ∧
      saveSnapshot none (fun _ => false) (prepareSnapshot source.sm) source.sm.db =
        .ok snapshot ∧
      recoverFromSnapshot .pebble none .none .none
        (Node.fresh ⟨0, Or.inl rfl⟩).sm ⟨snapshot, false⟩ = (recovered, .ok ()) ∧
      applyCalls recovered [storeAt 2] = .ok caughtUp ∧
      caughtUp.sm.db ≠ updated.sm.db ∧ caughtUp.stored ≠ updated.stored := by
  have hcalls : ∀ sm : EventStateMachine, applyCalls sm [storeAt 2] =
      .ok (report sm ([storeAt 2].flatMap Call.entries)
        [.store [⟨5, 7, [], [1]⟩]]) :=
    fun sm => (applyCalls_eq_ok_iff (List.cons_ne_nil _ _)).mpr
      ⟨_, carries_storeAt 2, rfl⟩
  exact ⟨nodeWithOne, _, _, caughtUpWithOne, _, run_nodeWithOne, hcalls _,
    saveSnapshot_eq _ _, recover_nodeWithOne, hcalls _, by decide +kernel,
    by decide +kernel⟩

/-- With a target that had counted the message too, the second one agrees. -/
theorem catch_up_agrees_iff_nodeWithOne :
    ∃ source updated snapshot recovered caughtUp,
      run step (Node.fresh ⟨0, Or.inl rfl⟩) [.update (storeAt 1)] = some source ∧
      applyCalls source.sm [storeAt 2] = .ok updated ∧
      saveSnapshot none (fun _ => false) (prepareSnapshot source.sm) source.sm.db =
        .ok snapshot ∧
      recoverFromSnapshot .pebble none .none .none
        ⟨∅, ⟨1, ⟨0, Or.inl rfl⟩⟩, 0⟩ ⟨snapshot, false⟩ = (recovered, .ok ()) ∧
      applyCalls recovered [storeAt 2] = .ok caughtUp ∧
      caughtUp.sm.db = updated.sm.db ∧ caughtUp.outcome = updated.outcome ∧
      caughtUp.stored = updated.stored := by
  have hcalls : applyCalls nodeWithOne.sm [storeAt 2] = .ok _ :=
    (applyCalls_eq_ok_iff (List.cons_ne_nil _ _)).mpr ⟨_, carries_storeAt 2, rfl⟩
  obtain ⟨snapshot, recovered, caughtUp, hsave, hrecover, happly, hiff⟩ :=
    catch_up_agrees_iff run_nodeWithOne ⟨∅, ⟨1, ⟨0, Or.inl rfl⟩⟩, 0⟩ hcalls
  exact ⟨nodeWithOne, _, snapshot, recovered, caughtUp, run_nodeWithOne, hcalls,
    hsave, hrecover, happly, hiff.mpr (Or.inl (by decide +kernel))⟩

end FutureQ.CatchUp
