import FutureQ.Broker.Shutdown

/-!
# The last flush

When its context ends, the deleter flushes once more and returns.  Everything that was
marked before is in that flush or was deleted by an earlier one, so if the backend accepts
it, no message that a client acknowledged before the shutdown is left in the database that
the next process opens.  What is acknowledged later may stay.
-/

namespace FutureQ.LastFlush

open FutureQ.ByteOrder
open FutureQ.GoRuntime
open FutureQ.OrderedStore
open FutureQ.RetryQueue
open FutureQ.Transition
open FutureQ.Storage
open FutureQ.Keys
open FutureQ.Repository
open FutureQ.StateMachine
open FutureQ.Deleter
open FutureQ.DueScan
open FutureQ.Consumers
open FutureQ.Dispatch
open FutureQ.Rounds
open FutureQ.Expiry (House)
open FutureQ.Shutdown

variable {Index : Type}

/-- Publishes take keys that nobody has marked. -/
def Fresh (lib : Libraries Index) (process : Process Index) : Shutdown.Action Index → Prop
  | .house (.broker action) => ∀ key ∈ written lib process.house.broker.sm action,
      key ∉ process.house.broker.queue.ledger
  | _ => True

instance instDecidableFresh (lib : Libraries Index) (process : Process Index) :
    (action : Shutdown.Action Index) → Decidable (Fresh lib process action)
  | .house (.broker _) => inferInstanceAs (Decidable (∀ key ∈ _, _))
  | .house .readClock | .house (.scan _) | .house .mark | .house .rest
  | .enter | .leave | .signal | .announce | .cancel | .select _ | .closeHost | .closeDB
  | .elapse | .lastFlush | .stop | .stopped _ | .exit _ => isTrue trivial

/-! ## What a step does to the queue of the deleter -/

section Queue

variable {lib : Libraries Index} {backend : Backend} {broker next : Broker Index}

/-- The keys of a batch that the backend has accepted are gone. -/
theorem gone_of_accepted {sm : EventStateMachine} {keys : List Bytes} {proposal : Proposal}
    {deletion : Deletion} (hroom : keys.length ≤ pendingCapacity)
    (hcall : callDeleteKeys backend sm keys proposal = some deletion)
    (haccepted : deletion.accepted = true) {key : Bytes} (hkey : key ∈ keys) :
    deletion.sm.db[key]? = none := by
  cases backend with
  | direct =>
      cases proposal with
      | accepted index =>
          simp only [callDeleteKeys, directDeleteKeys_none] at hcall
          cases hcall
          exact getElem?_commit_delete_mem _ hkey
      | rejected =>
          cases hcall
          cases haccepted
      | lost index => cases hcall
  | raft =>
      have hkeys := raftDeleteKeys_accepted hcall haccepted
      rw [callDeleteKeys, raftDeleteKeys_of_lengths hkeys hroom] at hcall
      cases proposal with
      | accepted index =>
          cases hcall
          exact getElem?_afterDelete hkeys sm index hkey
      | rejected =>
          cases hcall
          cases haccepted
      | lost index =>
          cases hcall
          cases haccepted

/-- A step marks keys, or is one of the deleter's own. -/
theorem marks_or_flushes {action : Rounds.Action Index}
    (hstep : Rounds.step lib backend broker action = some next) :
    Marks broker.queue next.queue ∨
      ∃ event, RetryQueue.step pendingCapacity broker.queue event = some next.queue ∧
        (event = .drain → action = .drain) ∧
        (Stocked broker → event = .returned true →
          ∀ key ∈ broker.queue.phase.inHand, next.sm.db[key]? = none) := by
  by_cases hactor : actor (.broker action) = .component .deleter
  swap
  · exact .inl ((frame_of_brokerStep hstep).queue hactor)
  right
  cases action with
  | drain =>
      obtain ⟨queue, hqueue, rfl⟩ := Option.map_eq_some_iff.mp hstep
      exact ⟨.drain, hqueue, fun _ => rfl, by simp⟩
  | deleteKeys proposal =>
      simp only [Rounds.step] at hstep
      split at hstep
      · rename_i keys hworking
        split at hstep
        · cases hstep
        · rename_i deletion hcall
          obtain ⟨queue, hqueue, rfl⟩ := Option.map_eq_some_iff.mp hstep
          refine ⟨.returned deletion.accepted, hqueue, by simp,
            fun hstocked haccepted key hkey => ?_⟩
          have hroom : keys.length ≤ pendingCapacity := by
            simpa [hworking] using hstocked.queue.inHand
          rw [hworking] at hkey
          exact gone_of_accepted hroom hcall (RetryQueue.Event.returned.inj haccepted) hkey
      · cases hstep
  | reenqueue =>
      obtain ⟨queue, hqueue, rfl⟩ := Option.map_eq_some_iff.mp hstep
      exact ⟨.reenqueue, hqueue, by simp, by simp⟩
  | notify =>
      simp only [Rounds.step] at hstep
      split at hstep
      · obtain ⟨queue, hqueue, rfl⟩ := Option.map_eq_some_iff.mp hstep
        exact ⟨.notify, hqueue, by simp, by simp⟩
      · cases hstep
  | _ => cases hactor

/-- Event keys that are not written keep their values or lose them. -/
theorem kept_or_gone {action : Rounds.Action Index}
    (heffect : Rounds.Effect lib broker action next) {key : Bytes} (hlength : key.length = 24)
    (hkey : key ∉ written lib broker.sm action) :
    next.sm.db[key]? = broker.sm.db[key]? ∨ next.sm.db[key]? = none := by
  cases heffect with
  | publish batch nowMs sm hkept => exact .inl (hkept key hlength hkey)
  | apply entry sm hkept => exact .inl (hkept key hlength hkey)
  | delete action keys sm dispatcher queue late hdoomed hdeletes hforgets =>
      by_cases hdeleted : key ∈ keys
      · exact .inr (hdeletes.gone key hdeleted hlength)
      · exact .inl (hdeletes.kept key hlength hdeleted)
  | _ => exact .inl rfl

end Queue

/-- The steps of a process that reach its queue: a step of the house, or the drain of the
last flush. -/
inductive Reach (lib : Libraries Index) (backend : Backend) (process next : Process Index) :
    Shutdown.Action Index → Prop where
  | none (action : Shutdown.Action Index) (hhouse : next.house = process.house)
      (hflush : next.lastFlush = process.lastFlush) : Reach lib backend process next action
  | house (action : Expiry.Action Index)
      (hallows : process.allows backend action = true)
      (hhouse : Expiry.step lib backend process.house action = some next.house)
      (hflush : next.lastFlush =
        process.lastFlush.after next.house.broker.queue.phase) :
      Reach lib backend process next (.house action)
  | lastFlush (hdrain : process.house.broker.enqueue .drain = some next.house.broker)
      (hflush : next.lastFlush =
        if process.house.broker.queue.pending = [] then .accepted else .begun) :
      Reach lib backend process next .lastFlush

theorem reach_of_step {lib : Libraries Index} {backend : Backend}
    {process next : Process Index} {action : Shutdown.Action Index}
    (hstep : Shutdown.step lib backend process action = some next) :
    Reach lib backend process next action := by
  cases action with
  | house action =>
      simp only [Shutdown.step] at hstep
      split_ifs at hstep with hallows hfault
      · obtain ⟨house, hhouse, rfl⟩ := Option.map_eq_some_iff.mp hstep
        exact .none _ rfl rfl
      · obtain ⟨house, hhouse, rfl⟩ := Option.map_eq_some_iff.mp hstep
        exact .house action hallows hhouse rfl
  | lastFlush =>
      simp only [Shutdown.step] at hstep
      split at hstep
      · obtain ⟨broker, hdrain, rfl⟩ := Option.map_eq_some_iff.mp hstep
        exact .lastFlush hdrain rfl
      · cases hstep
  | closeHost =>
      simp only [Shutdown.step] at hstep
      split at hstep <;> cases hstep
      exact .none _ rfl rfl
  | closeDB =>
      simp only [Shutdown.step] at hstep
      split at hstep <;> cases hstep
      exact .none _ rfl rfl
  | _ =>
      simp only [Shutdown.step] at hstep
      split_ifs at hstep
      cases hstep
      exact .none _ rfl rfl

/-! ## Deleted keys stay away -/

/-- No message is stored under a key whose deletion was accepted. -/
structure Cleared (broker : Broker Index) : Prop where
  stocked : Stocked broker
  emptied : ∀ key ∈ broker.queue.settled.flatten, key.length = 24 →
    broker.sm.db[key]? = none

section Cleared

variable {lib : Libraries Index} {backend : Backend}

theorem mem_ledger_of_settled {queue : Queue Bytes} {key : Bytes}
    (hkey : key ∈ queue.settled.flatten) : key ∈ queue.ledger :=
  List.mem_append_left _ (List.mem_append_left _ hkey)

theorem Cleared.brokerStep {broker next : Broker Index} {action : Rounds.Action Index}
    (hcleared : Cleared broker)
    (hfresh : ∀ key ∈ written lib broker.sm action, key ∉ broker.queue.ledger)
    (hstep : Rounds.step lib backend broker action = some next) : Cleared next := by
  obtain ⟨heffect, hstocked⟩ := Rounds.effect_of_step hcleared.stocked hstep
  -- what was deleted before is not written again
  have hbefore : ∀ key ∈ broker.queue.settled.flatten, key.length = 24 →
      next.sm.db[key]? = none := by
    intro key hkey hlength
    have hunwritten : key ∉ written lib broker.sm action := fun hwritten =>
      hfresh key hwritten (mem_ledger_of_settled hkey)
    rcases kept_or_gone heffect hlength hunwritten with hsame | hnone
    · exact hsame.trans (hcleared.emptied key hkey hlength)
    · exact hnone
  refine ⟨hstocked, ?_⟩
  rcases marks_or_flushes hstep with ⟨keys, hqueue⟩ | ⟨event, hqueue, -, hgone⟩
  · rw [hqueue]
    exact hbefore
  · generalize next.queue = queue at hqueue ⊢
    cases RetryQueue.effect_of_step hqueue with
    | accept batch hworking =>
        intro key hkey hlength
        rw [List.flatten_append, List.mem_append] at hkey
        rcases hkey with hearlier | hnew
        · exact hbefore key hearlier hlength
        · refine hgone hcleared.stocked rfl key ?_
          rw [hworking]
          simpa using hnew
    | _ => exact hbefore

theorem Cleared.enqueue {broker next : Broker Index} {event : RetryQueue.Event Bytes}
    (hcleared : Cleared broker) (hevent : ∀ accepted, event ≠ .returned accepted)
    (henqueue : broker.enqueue event = some next) : Cleared next := by
  obtain ⟨queue, hqueue, rfl⟩ := Option.map_eq_some_iff.mp henqueue
  refine ⟨⟨hcleared.stocked.queue.step hqueue, hcleared.stocked.late⟩, ?_⟩
  cases RetryQueue.effect_of_step hqueue with
  | accept batch hworking => exact absurd rfl (hevent true)
  | _ => exact hcleared.emptied

theorem Cleared.houseStep {house next : House Index} {action : Expiry.Action Index}
    (hcleared : Cleared house.broker)
    (hfresh : ∀ brokerAction, action = .broker brokerAction →
      ∀ key ∈ written lib house.broker.sm brokerAction, key ∉ house.broker.queue.ledger)
    (hstep : Expiry.step lib backend house action = some next) : Cleared next.broker := by
  obtain ⟨broker, janitor⟩ := house
  cases action with
  | broker action =>
      obtain ⟨after, hafter, rfl⟩ := Option.map_eq_some_iff.mp hstep
      exact hcleared.brokerStep (hfresh action rfl) hafter
  | readClock =>
      cases janitor with
      | resting =>
          cases hstep
          exact hcleared
      | clocked nowMs => cases hstep
      | marking keys => cases hstep
  | scan fails =>
      cases janitor with
      | resting => cases hstep
      | clocked nowMs =>
          cases hstep
          exact hcleared
      | marking keys => cases hstep
  | mark =>
      match janitor, hstep with
      | .marking (key :: keys), hstep =>
          obtain ⟨marked, hmarked, rfl⟩ := Option.map_eq_some_iff.mp hstep
          exact hcleared.enqueue (by simp) hmarked
  | rest =>
      match janitor, hstep with
      | .marking [], hstep =>
          cases hstep
          exact hcleared

theorem cleared_start (bucketSize : TimeBucketSize) (inFlightTimeout : Duration)
    (nowMs : Int64) :
    Cleared (Broker.start bucketSize inFlightTimeout nowMs : Broker Index) :=
  ⟨stocked_start _ _ _, fun _ hkey => absurd hkey List.not_mem_nil⟩

theorem Cleared.step {process next : Process Index} {action : Shutdown.Action Index}
    (hcleared : Cleared process.house.broker) (hfresh : Fresh lib process action)
    (hstep : Shutdown.step lib backend process action = some next) :
    Cleared next.house.broker := by
  cases reach_of_step hstep with
  | none action hhouse hflush =>
      rw [hhouse]
      exact hcleared
  | house action hallows hhouse hflush =>
      refine hcleared.houseStep ?_ hhouse
      rintro brokerAction rfl
      exact hfresh
  | lastFlush hdrain hflush => exact hcleared.enqueue (by simp) hdrain

end Cleared

/-! ## A key that was marked in time -/

/-- The key has been marked before the last flush began: that flush works on it unless it
was deleted before. -/
structure Tracked (key : Bytes) (lastFlush : LastFlush) (queue : Queue Bytes) : Prop where
  ledger : key ∈ queue.ledger
  unanswered : lastFlush = .begun → ∀ items, queue.phase ≠ .notifying items
  working : lastFlush = .begun → ∀ batch, queue.phase = .working batch →
    key ∈ queue.settled.flatten ∨ key ∈ batch
  accepted : lastFlush = .accepted → key ∈ queue.settled.flatten

section Tracked

variable {lib : Libraries Index} {backend : Backend} {key : Bytes} {lastFlush : LastFlush}
variable {queue next : Queue Bytes}

theorem after_eq_self {phase : RetryQueue.Phase Bytes}
    (hunanswered : lastFlush = .begun → ∀ items, phase ≠ .notifying items) :
    lastFlush.after phase = lastFlush := by
  unfold LastFlush.after
  split
  · rename_i items
    exact absurd rfl (hunanswered rfl items)
  · rfl

/-- A step that settles nothing and takes up no batch. -/
theorem Tracked.calm (htracked : Tracked key lastFlush queue) (hledger : key ∈ next.ledger)
    (hsettled : next.settled = queue.settled)
    (hunanswered : lastFlush = .begun → ∀ items, next.phase ≠ .notifying items)
    (hworking : ∀ batch, next.phase = .working batch → queue.phase = .working batch) :
    Tracked key (lastFlush.after next.phase) next := by
  rw [after_eq_self hunanswered]
  refine ⟨hledger, hunanswered, fun hbegun batch hbatch => ?_, fun haccepted => ?_⟩
  · rw [hsettled]
    exact htracked.working hbegun batch (hworking batch hbatch)
  · rw [hsettled]
    exact htracked.accepted haccepted

theorem Tracked.marks (htracked : Tracked key lastFlush queue) (hmarks : Marks queue next) :
    Tracked key (lastFlush.after next.phase) next := by
  obtain ⟨keys, rfl⟩ := hmarks
  have hledger : key ∈ Queue.ledger { queue with pending := queue.pending ++ keys } := by
    have hbefore := htracked.ledger
    simp only [Queue.ledger, List.mem_append] at hbefore ⊢
    tauto
  exact htracked.calm hledger rfl htracked.unanswered fun _ => id

/-- One step of `flush`, other than its beginning once the last one has begun. -/
theorem Tracked.event (htracked : Tracked key lastFlush queue)
    {event : RetryQueue.Event Bytes} (hdrain : event = .drain → lastFlush = .ahead)
    (hstep : RetryQueue.step pendingCapacity queue event = some next) :
    Tracked key (lastFlush.after next.phase) next := by
  have hledger : key ∈ next.ledger := by
    rw [ledger_step hstep]
    exact List.mem_append_left _ htracked.ledger
  cases RetryQueue.effect_of_step hstep with
  | mark item hroom => exact htracked.marks ⟨[item], rfl⟩
  | rest hidle hempty => exact htracked.marks (.refl _)
  | drain hidle hpending =>
      cases hdrain rfl
      exact ⟨hledger, by rintro ⟨⟩, by rintro ⟨⟩, by rintro ⟨⟩⟩
  | accept batch hworking =>
      have hflatten : ∀ {other : Bytes}, other ∈ queue.settled.flatten ∨ other ∈ batch →
          other ∈ (queue.settled ++ [batch]).flatten := by
        intro other hother
        simpa using hother
      cases lastFlush with
      | ahead => exact ⟨hledger, by rintro ⟨⟩, by rintro ⟨⟩, by rintro ⟨⟩⟩
      | begun =>
          exact ⟨hledger, by rintro ⟨⟩, by rintro ⟨⟩, fun _ =>
            hflatten (htracked.working rfl batch hworking)⟩
      | accepted =>
          exact ⟨hledger, by rintro ⟨⟩, by rintro ⟨⟩, fun _ =>
            hflatten (.inl (htracked.accepted rfl))⟩
  | refuse batch hworking => exact htracked.calm hledger rfl (by simp) (by simp)
  | reenqueue batch hfailed hroom => exact htracked.calm hledger rfl (by simp) (by simp)
  | notify item items hnotifying =>
      have hnever : lastFlush ≠ .begun := fun hbegun =>
        htracked.unanswered hbegun _ hnotifying
      exact htracked.calm hledger rfl (fun hbegun => absurd hbegun hnever) (by simp)
  | last item hnotifying => exact htracked.calm hledger rfl (by simp) (by simp)

/-- The last flush takes everything that is pending. -/
theorem Tracked.takeUp (htracked : Tracked key lastFlush queue)
    (hstep : RetryQueue.step pendingCapacity queue .drain = some next) :
    Tracked key (if queue.pending = [] then .accepted else .begun) next := by
  have hbefore := htracked.ledger
  cases RetryQueue.effect_of_step hstep with
  | rest hidle hempty =>
      rw [if_pos hempty]
      rw [Queue.ledger, hidle, hempty] at hbefore
      exact ⟨htracked.ledger, by rintro ⟨⟩, by rintro ⟨⟩, fun _ => by simpa using hbefore⟩
  | drain hidle hpending =>
      rw [if_neg hpending]
      rw [Queue.ledger, hidle] at hbefore
      refine ⟨?_, by simp, fun _ batch hbatch => ?_, by rintro ⟨⟩⟩
      · simpa [Queue.ledger] using hbefore
      · cases hbatch
        simpa using hbefore

theorem Tracked.step {process next : Process Index} {action : Shutdown.Action Index}
    (htracked : Tracked key process.lastFlush process.house.broker.queue)
    (hstep : Shutdown.step lib backend process action = some next) :
    Tracked key next.lastFlush next.house.broker.queue := by
  cases reach_of_step hstep with
  | none action hhouse hflush =>
      rw [hhouse, hflush]
      exact htracked
  | house action hallows hhouse hflush =>
      rw [hflush]
      by_cases hactor : actor action = .component .deleter
      swap
      · exact htracked.marks ((frame_of_step hhouse).1.queue hactor)
      cases action with
      | broker action =>
          obtain ⟨after, hafter, hnext⟩ := Option.map_eq_some_iff.mp hhouse
          have hbroker : next.house.broker = after := by rw [← hnext]
          rw [hbroker]
          rcases marks_or_flushes hafter with hmarks | ⟨event, hevent, hdrain, -⟩
          · exact htracked.marks hmarks
          · refine htracked.event (fun hbegins => ?_) hevent
            rw [hdrain hbegins] at hallows
            simp only [Process.allows, Bool.and_eq_true, decide_eq_true_eq] at hallows
            exact hallows.2
      | _ => cases hactor
  | lastFlush hdrain hflush =>
      rw [hflush]
      obtain ⟨queue, hqueue, hnext⟩ := Option.map_eq_some_iff.mp hdrain
      rw [← hnext]
      exact htracked.takeUp hqueue

/-- An acknowledgement that arrives before the last flush is in time. -/
theorem tracked_ack {process next : Process Index} {consumer : ConsumerEntry}
    (hahead : process.lastFlush = .ahead)
    (hstep : Shutdown.step lib backend process
      (.house (.broker (.ack consumer key true))) = some next) :
    Tracked key next.lastFlush next.house.broker.queue := by
  simp only [Shutdown.step] at hstep
  split_ifs at hstep with hallows hfault
  · exact absurd hfault.1 Bool.false_ne_true
  · obtain ⟨house, hhouse, rfl⟩ := Option.map_eq_some_iff.mp hstep
    obtain ⟨broker, hbroker, rfl⟩ := Option.map_eq_some_iff.mp hhouse
    obtain ⟨queue, hqueue, rfl⟩ := Option.map_eq_some_iff.mp hbroker
    rw [hahead]
    cases RetryQueue.effect_of_step hqueue with
    | mark item hroom =>
        exact ⟨by simp [Queue.ledger], by rintro ⟨⟩, by rintro ⟨⟩, by rintro ⟨⟩⟩

end Tracked

/-- A key that a client acknowledged before the context of the components was cancelled,
whatever happens during the shutdown: once the backend has accepted the last flush of the
deleter, or there was nothing to flush, no message is stored under it. -/
theorem acknowledged_before_shutdown_is_deleted (lib : Libraries Index) (backend : Backend)
    (bucketSize : TimeBucketSize) (inFlightTimeout : Duration) (startMs : Int64)
    {before after : List (Shutdown.Action Index)} {serving process : Process Index}
    {consumer : ConsumerEntry} {key : Bytes}
    (hbefore : run (Shutdown.step lib backend)
      (.start backend bucketSize inFlightTimeout startMs) before = some serving)
    (hserving : serving.ctxDone = false)
    (hafter : run (Shutdown.step lib backend) serving
      (.house (.broker (.ack consumer key true)) :: after) = some process)
    (hfresh : Meets (Shutdown.step lib backend) (Fresh lib)
      (.start backend bucketSize inFlightTimeout startMs)
      (before ++ .house (.broker (.ack consumer key true)) :: after))
    (haccepted : process.lastFlush = .accepted) (hlength : key.length = 24) :
    process.house.broker.sm.db[key]? = none := by
  have hsound := sound_run lib backend bucketSize inFlightTimeout startMs hbefore
  have hahead : serving.lastFlush = .ahead := by
    by_contra hflushed
    rw [hsound.flushed hflushed] at hserving
    cases hserving
  obtain ⟨acked, hack, hrest⟩ := run_cons_eq_some.mp hafter
  have htracked : Tracked key process.lastFlush process.house.broker.queue :=
    run_preserves (fun _ _ _ htracked hstep => Tracked.step htracked hstep)
      (tracked_ack hahead hack) hrest
  have hstart : Cleared (Process.start backend bucketSize inFlightTimeout startMs :
      Process Index).house.broker := cleared_start bucketSize inFlightTimeout startMs
  have hcleared : Cleared process.house.broker :=
    run_invariant (fun _ _ _ hcleared hfresh hstep => Cleared.step hcleared hfresh hstep)
      hstart hfresh ((run_append_of_run hbefore _).trans hafter)
  exact hcleared.emptied key (htracked.accepted haccepted) hlength

/-- The order is acknowledged between the signal and the end of the context. -/
theorem acknowledged_before_shutdown_is_deleted_order :
    ∃ process, run (Shutdown.step orderLibraries .direct)
        (.start .direct ⟨0, valid_zero⟩ 30000000000 10) (serveOrder ++ stopInTime) =
          some process ∧
      process.main = .done true ∧ process.house.broker.sm.db[orderKey]? = none := by
  have hsplit : serveOrder ++ stopInTime =
      (serveOrder ++ [.house .readClock, .signal, .announce]) ++
        .house (.broker (.ack ⟨"c1", "orders", ""⟩ orderKey true)) :: stopInTime.drop 4 :=
    rfl
  obtain ⟨serving, hbefore, hserving⟩ :
      ∃ serving, run (Shutdown.step orderLibraries .direct)
        (.start .direct ⟨0, valid_zero⟩ 30000000000 10)
        (serveOrder ++ [.house .readClock, .signal, .announce]) = some serving ∧
        serving.ctxDone = false := exists_finish_of_any (by decide +kernel)
  obtain ⟨process, hrun, hdone, haccepted⟩ :
      ∃ process, run (Shutdown.step orderLibraries .direct)
        (.start .direct ⟨0, valid_zero⟩ 30000000000 10) (serveOrder ++ stopInTime) =
          some process ∧ process.main = .done true ∧ process.lastFlush = .accepted :=
    exists_finish_of_any (by decide +kernel)
  have hafter := hrun
  rw [hsplit, run_append_of_run hbefore] at hafter
  have hfresh : Meets (Shutdown.step orderLibraries .direct) (Fresh orderLibraries)
      (.start .direct ⟨0, valid_zero⟩ 30000000000 10) (serveOrder ++ stopInTime) := by
    decide +kernel
  rw [hsplit] at hfresh
  exact ⟨process, hrun, hdone, acknowledged_before_shutdown_is_deleted orderLibraries .direct
    _ _ _ hbefore hserving hafter hfresh haccepted (length_eventKey 5 7 1)⟩

/-- An acknowledgement behind the last flush leaves the order in the database. -/
example : (run (Shutdown.step orderLibraries .direct)
    (.start .direct ⟨0, valid_zero⟩ 30000000000 10)
    (serveOrder ++ [.signal, .announce, .cancel, .lastFlush, .exit .deleter,
      .house (.broker (.ack ⟨"c1", "orders", ""⟩ orderKey true)), .exit .dispatcher,
      .exit .janitor, .exit .metrics, .leave, .stop, .stopped false, .exit .grpc,
      .select true, .closeHost, .closeDB])).any (fun process =>
        process.main = .done true ∧ process.house.broker.sm.db[orderKey]? = some [1]) =
    true := by
  decide +kernel

end FutureQ.LastFlush
