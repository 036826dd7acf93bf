import FutureQ.Event.CatchUp
import FutureQ.Event.Replay

/-!
# Saving a snapshot beside updates

Dragonboat calls `PrepareSnapshot` between two `Update` calls and labels the
snapshot with the index applied at that point, but runs `SaveSnapshot` beside
later `Update` calls.  The scan of `SaveSnapshot` sees the database of the
moment it opens, not of the moment of `PrepareSnapshot`: the snapshot is the
labelled one exactly when no call falls between the two.
-/

namespace FutureQ.Streaming

open FutureQ.ByteOrder
open FutureQ.OrderedStore
open FutureQ.Transition
open FutureQ.Storage
open FutureQ.Keys
open FutureQ.Repository
open FutureQ.StateMachine
open FutureQ.Journal
open FutureQ.Replica
open FutureQ.Snapshot
open FutureQ.CatchUp

/-- Where the snapshot task stands.  `ctx` is the value of `PrepareSnapshot`;
while scanning, `unread` is what the iterator still has to yield. -/
inductive Phase where
  | idle
  | prepared (ctx : UInt64)
  | scanning (ctx : UInt64) (unread : List (Bytes × Bytes)) (sink : Sink)
      (poll : ℕ)
  | saved (ctx : UInt64) (bytes : Bytes)
  deriving DecidableEq

/-- A replica with one snapshot task.  The other fields record the history: the
entries applied so far, the database at `PrepareSnapshot`, the entries of the
calls between it and the opening of the scan, and the database and the applied
entries that the scan sees. -/
structure Session where
  sm : EventStateMachine
  phase : Phase
  applied : List Entry
  preparedDB : DB
  between : List Entry
  scannedDB : DB
  seen : List Entry

inductive Move where
  | update (call : Call)
  | prepare
  | openScan
  | yield
  | finish

def Session.begin (sm : EventStateMachine) : Session :=
  ⟨sm, .idle, [], ∅, [], ∅, []⟩

def Phase.isPrepared : Phase → Bool
  | .prepared _ => true
  | _ => false

def move (session : Session) : Move → Option Session
  | .update call =>
      match update .pebble .none session.sm call.entries with
      | .error _ => none
      | .ok updated =>
          some { session with
            sm := updated.sm
            applied := session.applied ++ call.entries
            between := if session.phase.isPrepared
              then session.between ++ call.entries else session.between }
  | .prepare =>
      match session.phase with
      | .idle =>
          some { session with
            phase := .prepared (prepareSnapshot session.sm)
            preparedDB := session.sm.db }
      | _ => none
  | .openScan =>
      match session.phase with
      | .prepared ctx =>
          some { session with
            phase := .scanning ctx session.sm.db.toList ⟨[], 0⟩ 0
            scannedDB := session.sm.db
            seen := session.applied }
      | _ => none
  | .yield =>
      match session.phase with
      | .scanning ctx (entry :: unread) sink poll =>
          match saveRecord none (fun _ => false) (sink, poll) entry with
          | .error _ => none
          | .ok (sink, poll) =>
              some { session with phase := .scanning ctx unread sink poll }
      | _ => none
  | .finish =>
      match session.phase with
      | .scanning ctx [] sink _ =>
          some { session with phase := .saved ctx sink.written }
      | _ => none

/-- The task took its label `ctx` before the entries `between`. -/
structure Labelled (origin : EventStateMachine) (session : Session)
    (ctx : UInt64) (applied : List Entry) (db : DB) : Prop where
  split : ∃ early, applied = early ++ session.between ∧
    ctx = lastIndex origin.lastApplied early
  durable : Durable session.preparedDB ctx
  same : session.between = [] → session.preparedDB = db

/-- What the history says in each phase. -/
def PhaseHistory (origin : EventStateMachine) (session : Session) : Prop :=
  match session.phase with
  | .idle => session.between = []
  | .prepared ctx =>
      Labelled origin session ctx session.applied session.sm.db
  | .scanning ctx unread sink _ =>
      Labelled origin session ctx session.seen session.scannedDB ∧
        session.seen <+: session.applied ∧
        sink.written ++ unread.flatMap record = serialise session.scannedDB
  | .saved ctx bytes =>
      Labelled origin session ctx session.seen session.scannedDB ∧
        session.seen <+: session.applied ∧ bytes = serialise session.scannedDB

structure History (origin : EventStateMachine) (session : Session) : Prop where
  durable : Durable session.sm.db session.sm.lastApplied
  lastApplied : session.sm.lastApplied =
    lastIndex origin.lastApplied session.applied
  phase : PhaseHistory origin session

theorem history_begin {origin : EventStateMachine}
    (hdurable : Durable origin.db origin.lastApplied) :
    History origin (Session.begin origin) :=
  ⟨hdurable, rfl, rfl⟩

theorem history_update {origin : EventStateMachine} {session : Session}
    (hhistory : History origin session) {call : Call} {commands : List Command}
    (hcarries : Carries call.entries commands) :
    History origin { session with
      sm := play session.sm call.entries commands
      applied := session.applied ++ call.entries
      between := if session.phase.isPrepared
        then session.between ++ call.entries else session.between } where
  durable := durable_play hhistory.durable hcarries
  lastApplied := by
    simp only [play, lastIndex_append, hhistory.lastApplied]
  phase := by
    have hphase := hhistory.phase
    unfold PhaseHistory at hphase ⊢
    cases hcase : session.phase with
    | idle => simpa [hcase, Phase.isPrepared] using hphase
    | prepared ctx =>
        simp only [hcase] at hphase
        obtain ⟨⟨early, happlied, hctx⟩, hdurable, -⟩ := hphase
        simp only [Phase.isPrepared, if_true]
        refine ⟨⟨early, ?_, hctx⟩, hdurable, ?_⟩
        · simp [happlied]
        · intro hnil
          exact absurd (List.append_eq_nil_iff.mp hnil).2 call.nonempty
    | scanning ctx unread sink poll =>
        simp only [hcase] at hphase
        obtain ⟨⟨hsplit, hdurable, hsame⟩, hseen, hwritten⟩ := hphase
        simp only [Phase.isPrepared, Bool.false_eq_true, if_false]
        exact ⟨⟨hsplit, hdurable, hsame⟩, hseen.trans (List.prefix_append _ _),
          hwritten⟩
    | saved ctx bytes =>
        simp only [hcase] at hphase
        obtain ⟨⟨hsplit, hdurable, hsame⟩, hseen, hbytes⟩ := hphase
        simp only [Phase.isPrepared, Bool.false_eq_true, if_false]
        exact ⟨⟨hsplit, hdurable, hsame⟩, hseen.trans (List.prefix_append _ _),
          hbytes⟩

theorem history_prepare {origin : EventStateMachine} {session : Session}
    (hhistory : History origin session) (hidle : session.phase = .idle) :
    History origin { session with
      phase := .prepared (prepareSnapshot session.sm)
      preparedDB := session.sm.db } where
  durable := hhistory.durable
  lastApplied := hhistory.lastApplied
  phase := by
    have hphase := hhistory.phase
    simp only [PhaseHistory, hidle] at hphase
    refine ⟨⟨session.applied, ?_, hhistory.lastApplied⟩, hhistory.durable, ?_⟩
    · simp [hphase]
    · exact fun _ => rfl

theorem history_openScan {origin : EventStateMachine} {session : Session}
    (hhistory : History origin session) {ctx : UInt64}
    (hprepared : session.phase = .prepared ctx) :
    History origin { session with
      phase := .scanning ctx session.sm.db.toList ⟨[], 0⟩ 0
      scannedDB := session.sm.db
      seen := session.applied } where
  durable := hhistory.durable
  lastApplied := hhistory.lastApplied
  phase := by
    have hphase := hhistory.phase
    simp only [PhaseHistory, hprepared] at hphase
    obtain ⟨hsplit, hdurable, hsame⟩ := hphase
    exact ⟨⟨hsplit, hdurable, hsame⟩, List.prefix_rfl, by simp [serialise]⟩

theorem history_yield {origin : EventStateMachine} {session : Session}
    (hhistory : History origin session) {ctx : UInt64} {entry : Bytes × Bytes}
    {unread : List (Bytes × Bytes)} {sink : Sink} {poll : ℕ}
    (hscanning : session.phase = .scanning ctx (entry :: unread) sink poll) :
    History origin { session with
      phase := .scanning ctx unread
        ⟨sink.written ++ record entry, sink.calls + 4⟩ (poll + 1) } where
  durable := hhistory.durable
  lastApplied := hhistory.lastApplied
  phase := by
    have hphase := hhistory.phase
    simp only [PhaseHistory, hscanning] at hphase
    obtain ⟨⟨hsplit, hdurable, hsame⟩, hseen, hwritten⟩ := hphase
    refine ⟨⟨hsplit, hdurable, hsame⟩, hseen, ?_⟩
    rw [← hwritten, List.flatMap_cons, List.append_assoc]

theorem history_finish {origin : EventStateMachine} {session : Session}
    (hhistory : History origin session) {ctx : UInt64} {sink : Sink} {poll : ℕ}
    (hscanning : session.phase = .scanning ctx [] sink poll) :
    History origin { session with phase := .saved ctx sink.written } where
  durable := hhistory.durable
  lastApplied := hhistory.lastApplied
  phase := by
    have hphase := hhistory.phase
    simp only [PhaseHistory, hscanning] at hphase
    obtain ⟨⟨hsplit, hdurable, hsame⟩, hseen, hwritten⟩ := hphase
    exact ⟨⟨hsplit, hdurable, hsame⟩, hseen, by simpa using hwritten⟩

theorem history_move {origin : EventStateMachine} {session next : Session}
    {action : Move} (hhistory : History origin session)
    (hmove : move session action = some next) : History origin next := by
  cases action with
  | update call =>
      cases hupdate : update .pebble .none session.sm call.entries with
      | error reason => simp [move, hupdate] at hmove
      | ok updated =>
          obtain ⟨commands, hcarries, rfl⟩ := update_eq_ok_iff.mp hupdate
          simp only [move, hupdate, Option.some.injEq] at hmove
          exact hmove ▸ history_update hhistory hcarries
  | prepare =>
      cases hphase : session.phase with
      | idle =>
          simp only [move, hphase, Option.some.injEq] at hmove
          exact hmove ▸ history_prepare hhistory hphase
      | prepared _ => simp [move, hphase] at hmove
      | scanning _ _ _ _ => simp [move, hphase] at hmove
      | saved _ _ => simp [move, hphase] at hmove
  | openScan =>
      cases hphase : session.phase with
      | prepared ctx =>
          simp only [move, hphase, Option.some.injEq] at hmove
          exact hmove ▸ history_openScan hhistory hphase
      | idle => simp [move, hphase] at hmove
      | scanning _ _ _ _ => simp [move, hphase] at hmove
      | saved _ _ => simp [move, hphase] at hmove
  | yield =>
      cases hphase : session.phase with
      | scanning ctx unread sink poll =>
          cases unread with
          | nil => simp [move, hphase] at hmove
          | cons entry unread =>
              simp only [move, hphase, saveRecord_none, Option.some.injEq] at hmove
              exact hmove ▸ history_yield hhistory hphase
      | idle => simp [move, hphase] at hmove
      | prepared _ => simp [move, hphase] at hmove
      | saved _ _ => simp [move, hphase] at hmove
  | finish =>
      cases hphase : session.phase with
      | scanning ctx unread sink poll =>
          cases unread with
          | nil =>
              simp only [move, hphase, Option.some.injEq] at hmove
              exact hmove ▸ history_finish hhistory hphase
          | cons entry unread => simp [move, hphase] at hmove
      | idle => simp [move, hphase] at hmove
      | prepared _ => simp [move, hphase] at hmove
      | saved _ _ => simp [move, hphase] at hmove

/-- The label of a part of the log separates it from the rest. -/
theorem label_separates {lastApplied : UInt64} {early between : List Entry}
    (hincreasing : ((early ++ between).map Entry.index).Pairwise (· < ·))
    (hafter : ∀ entry ∈ early ++ between, lastApplied < entry.index) :
    (∀ entry ∈ early ++ between, ¬ lastIndex lastApplied early < entry.index) ↔
      between = [] := by
  have hfilter := Replay.filter_after_lastIndex hincreasing hafter
  constructor
  · intro hnone
    rw [← hfilter, List.filter_eq_nil_iff]
    simpa using hnone
  · rintro rfl entry hentry hlt
    have hmem : entry ∈ (early ++ []).filter
        fun entry : Entry => lastIndex lastApplied early < entry.index :=
      List.mem_filter.mpr ⟨hentry, decide_eq_true hlt⟩
    rw [hfilter] at hmem
    exact List.not_mem_nil hmem

/-- The bytes of `SaveSnapshot` are those of the database at `PrepareSnapshot`,
carry its applied index and hold no entry behind it, exactly when no `Update`
call fell between `PrepareSnapshot` and the opening of the scan. -/
theorem snapshot_is_prepared_iff {bucketSize : TimeBucketSize}
    {actions : List Action} {node : Node}
    (hrun : run step (Node.fresh bucketSize) actions = some node)
    {moves : List Move} {session : Session}
    (hmoves : run move (Session.begin node.sm) moves = some session)
    {ctx : UInt64} {bytes : Bytes} (hsaved : session.phase = .saved ctx bytes)
    (hincreasing : (session.applied.map Entry.index).Pairwise (· < ·))
    (hafter : ∀ entry ∈ session.applied, node.sm.lastApplied < entry.index) :
    (saveSnapshot none (fun _ => false) ctx session.preparedDB = .ok bytes ∧
      (∀ target recovered,
        recoverFromSnapshot .pebble none .none .none target ⟨bytes, false⟩ =
          (recovered, .ok ()) →
        readCounter .pebble recovered.db appliedIndexKey 0 = .ok ctx) ∧
      ∀ entry ∈ session.seen, ¬ ctx < entry.index) ↔
      session.between = [] := by
  have hhistory := run_preserves (fun _ _ _ => history_move)
    (history_begin (durable_run hrun)) hmoves
  have hphase := hhistory.phase
  simp only [PhaseHistory, hsaved] at hphase
  obtain ⟨⟨⟨early, hseen, rfl⟩, hdurable, hsame⟩, ⟨later, happlied⟩, rfl⟩ := hphase
  have hseparates : (∀ entry ∈ session.seen,
      ¬ lastIndex node.sm.lastApplied early < entry.index) ↔
        session.between = [] := by
    rw [hseen]
    rw [← happlied, hseen, List.map_append, List.pairwise_append] at hincreasing
    rw [← happlied, hseen] at hafter
    exact label_separates hincreasing.1
      fun entry hentry => hafter entry (List.mem_append_left _ hentry)
  constructor
  · intro hproperty
    exact hseparates.mp hproperty.2.2
  · intro hnil
    refine ⟨?_, ?_, hseparates.mpr hnil⟩
    · rw [saveSnapshot_eq, hsame hnil]
    · intro target recovered hrecover
      obtain ⟨read, hread⟩ := exists_readCounter hdurable.applied target.lastApplied
      rw [← hsame hnil, recoverFromSnapshot_serialise hdurable.bounded hread] at hrecover
      obtain ⟨rfl, -⟩ := Prod.mk.inj hrecover
      exact hdurable.applied

/-- Runs of the snapshot task beside one stored message, on a new node. -/
def runMoves (moves : List Move) : Option Session :=
  run move (Session.begin (Node.fresh ⟨0, valid_zero⟩).sm) moves

/-- The message is stored before the scan is opened. -/
def storeBeforeScan : List Move :=
  [.prepare, .update (storeAt 1), .openScan, .yield, .yield, .yield, .finish]

theorem storeBeforeScan_runs : (runMoves storeBeforeScan).isSome = true := by
  decide +kernel

/-- The snapshot is labelled 0 and holds the entry with index 1, which is then
applied again. -/
theorem snapshot_holds_later_entry :
    ∃ session bytes,
      runMoves storeBeforeScan = some session ∧ session.phase = .saved 0 bytes ∧
      saveSnapshot none (fun _ => false) 0 session.preparedDB ≠ .ok bytes ∧
      readCounter .pebble (recoverFromSnapshot .pebble none .none .none
        (Node.fresh ⟨0, Or.inl rfl⟩).sm ⟨bytes, false⟩).1.db appliedIndexKey 0 =
          .ok 1 ∧
      ∃ entry ∈ session.seen, 0 < entry.index := by
  refine ⟨(runMoves storeBeforeScan).get storeBeforeScan_runs,
    serialise nodeWithOne.sm.db, (Option.some_get storeBeforeScan_runs).symm,
    by decide +kernel, by decide +kernel, ?_, by decide +kernel⟩
  rw [recover_nodeWithOne]
  decide +kernel

/-- The message is stored after the scan was opened. -/
def storeDuringScan : List Move :=
  [.prepare, .openScan, .update (storeAt 1), .finish]

theorem storeDuringScan_runs : (runMoves storeDuringScan).isSome = true := by
  decide +kernel

theorem snapshot_is_prepared_iff_storeDuringScan :
    ∃ session bytes,
      runMoves storeDuringScan = some session ∧ session.phase = .saved 0 bytes ∧
      saveSnapshot none (fun _ => false) 0 session.preparedDB = .ok bytes ∧
      ∀ entry ∈ session.seen, ¬ 0 < entry.index := by
  have hsaved : ((runMoves storeDuringScan).get storeDuringScan_runs).phase =
      .saved 0 [] := by
    decide +kernel
  have hnode : run step (Node.fresh ⟨0, Or.inl rfl⟩) [] =
      some (Node.fresh ⟨0, Or.inl rfl⟩) := rfl
  have hmoves := (Option.some_get storeDuringScan_runs).symm
  have hproperty := (snapshot_is_prepared_iff hnode hmoves hsaved
    (by decide +kernel) (by decide +kernel)).mpr (by decide +kernel)
  exact ⟨_, [], hmoves, hsaved, hproperty.1, hproperty.2.2⟩

end FutureQ.Streaming
