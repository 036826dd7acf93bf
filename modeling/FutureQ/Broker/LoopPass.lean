import FutureQ.Broker.DispatchAll
import FutureQ.Broker.DispatchLoop
import FutureQ.Broker.Redelivery

/-!
# An undisturbed pass of the loop

The loop of the dispatcher takes many steps for one call of `dispatchAll`, and other
goroutines may come in between any two of them.  If none does, the loop computes
`dispatchAll`: it ends where the function ends, with the offers of the function in the log,
the expired keys in the queue of the deleter and the timer set for the next pass.
-/

namespace FutureQ.LoopPass

open FutureQ.ByteOrder
open FutureQ.OrderedStore
open FutureQ.Transition
open FutureQ.Storage
open FutureQ.Keys
open FutureQ.Repository
open FutureQ.Deleter
open FutureQ.DueScan
open FutureQ.Consumers
open FutureQ.Dispatch
open FutureQ.Rounds (Backend Broker Round Event subscribers orderLibraries publishOrder)
open FutureQ.DispatchAll
open FutureQ.DispatchLoop

variable {Index : Type}

/-- The loop gets from one state to the other by steps of its own. -/
def Alone (lib : Libraries Index) (backend : Backend) (interval : Duration) :
    Loop Index → Loop Index → Prop :=
  Relation.ReflTransGen fun loop next =>
    ∃ action, Action.own action = true ∧ step lib backend interval loop action = some next

/-- The state that a pass does not touch. -/
structure Beside (loop next : Loop Index) : Prop where
  sm : next.broker.sm = loop.broker.sm
  nowMs : next.broker.nowMs = loop.broker.nowMs
  queue : next.broker.queue = loop.broker.queue

/-- What the log says about an offer, the newest event in front. -/
def offerEvents (hub : Hub) (offer : Offer Index) : List Event :=
  offer.receivers.reverse.map (.sent · offer.key) ++
    [.dispatched offer.key (subscribers hub offer.msg.topic)]

/-- What the log says about a series of offers. -/
def offersLog (hub : Hub) (offers : List (Offer Index)) : List Event :=
  offers.reverse.flatMap (offerEvents hub)

/-- The log has the offers of the pass behind what it held before, and the pass has left
the subscriptions of the hub alone. -/
structure Logged (hub : Hub) (log : List Event) (loop : Loop Index) (pass : Pass Index) :
    Prop where
  topics : pass.hub.topics = hub.topics
  log : loop.broker.log = offersLog hub pass.offers ++ log

/-- The loop is inside `dispatchTopic`, where the callback of the scan has come so far. -/
structure Mirrors (trigger : Trigger) (nowMs : Int64) (topics : List String)
    (topic : String) (rest : List (Bytes × Bytes)) (total : ℕ) (loop : Loop Index)
    (pass : Pass Index) : Prop where
  hub : loop.broker.hub = pass.hub
  dispatcher : loop.broker.dispatcher = pass.dispatcher
  round : loop.broker.round = some ⟨topic, nowMs, rest, .idle, pass.expiredKeys⟩
  position : loop.position = .passing trigger nowMs topics (total + pass.dispatched)

section Steps

variable {lib : Libraries Index} {backend : Backend} {interval : Duration}
  {loop : Loop Index} {trigger : Trigger} {nowMs : Int64} {topics : List String}
  {topic : String} {rest : List (Bytes × Bytes)} {total dispatched : ℕ}
  {listed : Hub} {log : List Event}

theorem offersLog_append (hub : Hub) (first second : List (Offer Index)) :
    offersLog hub (first ++ second) = offersLog hub second ++ offersLog hub first := by
  rw [offersLog, List.reverse_append, List.flatMap_append]
  rfl

theorem subscribers_congr {left right : Hub} (htopics : left.topics = right.topics)
    (topic : String) : subscribers left topic = subscribers right topic := by
  rw [subscribers, subscribers, Hub.subscription, Hub.subscription, htopics]

theorem Beside.refl (loop : Loop Index) : Beside loop loop := ⟨rfl, rfl, rfl⟩

theorem Beside.trans {middle next : Loop Index} (hfirst : Beside loop middle)
    (hsecond : Beside middle next) : Beside loop next :=
  ⟨hsecond.sm.trans hfirst.sm, hsecond.nowMs.trans hfirst.nowMs,
    hsecond.queue.trans hfirst.queue⟩

theorem Alone.single {next : Loop Index} {action : Action Index}
    (hown : Action.own action = true)
    (hstep : step lib backend interval loop action = some next) :
    Alone lib backend interval loop next :=
  Relation.ReflTransGen.single ⟨action, hown, hstep⟩

/-- A step of `dispatchTopic` as a step of the loop. -/
theorem Alone.visit {action : Rounds.Action Index} {broker : Broker Index}
    (hposition : loop.position = .passing trigger nowMs topics dispatched)
    (hinTopic : inTopic action = true)
    (hstep : Rounds.step lib backend loop.broker action = some broker) :
    Alone lib backend interval loop
      { loop with
        broker
        position := .passing trigger nowMs topics (dispatched + counted action) } := by
  have hvisit : step lib backend interval loop (.visit action) = some
      { loop with
        broker
        position := .passing trigger nowMs topics (dispatched + counted action) } := by
    simp only [step, hposition, hinTopic, hstep]
    rfl
  exact .single rfl hvisit

/-- The hub is asked, and the key is tracked if somebody got the message. -/
theorem alone_offer (lib : Libraries Index) (backend : Backend) (interval : Duration)
    (loop : Loop Index) (pass : Pass Index) {key : Bytes} {msg : StoredMessage Index}
    (hhub : loop.broker.hub = pass.hub)
    (hdispatcher : loop.broker.dispatcher = pass.dispatcher)
    (hround : loop.broker.round =
      some ⟨topic, nowMs, rest, .checked key msg, pass.expiredKeys⟩)
    (hposition : loop.position = .passing trigger nowMs topics (total + pass.dispatched))
    (hlogged : Logged listed log loop pass) (turn : Turn) :
    ∃ next, Alone lib backend interval loop next ∧ Beside loop next ∧
      Mirrors trigger nowMs topics topic rest total next
        (pass.offer topic turn key msg) ∧
      Logged listed log next (pass.offer topic turn key msg) := by
  obtain ⟨hub, dispatcher, dispatched, expired, offers⟩ := pass
  subst hhub hdispatcher
  have htopics : (loop.broker.hub.dispatchToTopic turn.order topic (queueMessage key msg)
      key).hub.topics = listed.topics :=
    (extends_dispatchToTopic _ _ _ _ _).topics.trans hlogged.topics
  have hlog : (loop.broker.dispatch ⟨topic, nowMs, rest, .checked key msg, expired⟩
      turn.order key msg).log = offersLog listed (offers ++
        [⟨key, msg, (loop.broker.hub.dispatchToTopic turn.order topic
          (queueMessage key msg) key).receivers⟩]) ++ log := by
    rw [offersLog_append, List.append_assoc, ← hlogged.log, Broker.dispatch,
      subscribers_congr hlogged.topics]
    simp [offersLog, offerEvents]
  have hdispatch := Redelivery.step_dispatch lib backend hround turn.order
  have hasked : Alone lib backend interval loop _ := .visit hposition rfl hdispatch
  simp only [Pass.offer]
  split_ifs with hnobody
  · exact ⟨_, hasked, ⟨rfl, rfl, rfl⟩,
      ⟨rfl, rfl, by simp [Broker.dispatch, hnobody], rfl⟩, htopics, hlog⟩
  · have hsent : (loop.broker.dispatch ⟨topic, nowMs, rest, .checked key msg, expired⟩
        turn.order key msg).round = some ⟨topic, nowMs, rest, .sent key, expired⟩ := by
      simp [Broker.dispatch, hnobody]
    have htrack := Redelivery.step_track lib backend hsent turn.storedAt
    have htracked : Alone lib backend interval
        { loop with
          broker := loop.broker.dispatch ⟨topic, nowMs, rest, .checked key msg, expired⟩
            turn.order key msg
          position := .passing trigger nowMs topics (total + dispatched) } _ :=
      .visit rfl rfl htrack
    exact ⟨_, hasked.trans htracked, ⟨rfl, rfl, rfl⟩, ⟨rfl, rfl, rfl, rfl⟩, htopics, hlog⟩

/-- The steps of the callback are a visit. -/
theorem alone_visit (lib : Libraries Index) (backend : Backend) (interval : Duration)
    {pass : Pass Index} {entry : Bytes × Bytes}
    (hmirrors : Mirrors trigger nowMs topics topic (entry :: rest) total loop pass)
    (hlogged : Logged listed log loop pass) (turns : Bytes → Turn) :
    ∃ next, Alone lib backend interval loop next ∧ Beside loop next ∧
      Mirrors trigger nowMs topics topic rest total next
        (visit lib topic nowMs turns pass entry) ∧
      Logged listed log next (visit lib topic nowMs turns pass entry) := by
  have hcheck := Redelivery.step_check lib backend hmirrors.round
    (turns entry.1).checkedAt
  have hchecked : Alone lib backend interval loop _ :=
    .visit hmirrors.position rfl hcheck
  rcases hinspect : pass.dispatcher.inspect lib nowMs (turns entry.1).checkedAt
    entry.1 entry.2 with ⟨verdict, after⟩
  rw [Broker.check, hmirrors.dispatcher, hinspect] at hchecked
  rw [visit, hinspect]
  cases verdict with
  | inFlight =>
      exact ⟨_, hchecked, ⟨rfl, rfl, rfl⟩, ⟨hmirrors.hub, rfl, rfl, rfl⟩, hlogged.topics,
        hlogged.log⟩
  | undecodable =>
      exact ⟨_, hchecked, ⟨rfl, rfl, rfl⟩, ⟨hmirrors.hub, rfl, rfl, rfl⟩, hlogged.topics,
        hlogged.log⟩
  | expired =>
      exact ⟨_, hchecked, ⟨rfl, rfl, rfl⟩, ⟨hmirrors.hub, rfl, rfl, rfl⟩, hlogged.topics,
        hlogged.log⟩
  | deliverable msg =>
      obtain ⟨next, halone, hbeside, hnext⟩ := alone_offer lib backend interval
        { loop with
          broker := { loop.broker with
            dispatcher := after
            round := some ⟨topic, nowMs, rest, .checked entry.1 msg, pass.expiredKeys⟩ }
          position := .passing trigger nowMs topics (total + pass.dispatched) }
        { pass with dispatcher := after } hmirrors.hub rfl rfl rfl
        ⟨hlogged.topics, hlogged.log⟩ (turns entry.1)
      exact ⟨next, hchecked.trans halone,
        ⟨hbeside.sm, hbeside.nowMs, hbeside.queue⟩, hnext⟩

theorem alone_visits (lib : Libraries Index) (backend : Backend) (interval : Duration)
    {pass : Pass Index}
    (hmirrors : Mirrors trigger nowMs topics topic rest total loop pass)
    (hlogged : Logged listed log loop pass) (turns : Bytes → Turn) :
    ∃ next, Alone lib backend interval loop next ∧ Beside loop next ∧
      Mirrors trigger nowMs topics topic [] total next
        (rest.foldl (visit lib topic nowMs turns) pass) ∧
      Logged listed log next (rest.foldl (visit lib topic nowMs turns) pass) := by
  induction rest generalizing loop pass with
  | nil => exact ⟨loop, .refl, .refl loop, hmirrors, hlogged⟩
  | cons entry rest ih =>
      obtain ⟨middle, hfirst, hbeside, hmiddle, hlogged⟩ :=
        alone_visit lib backend interval hmirrors hlogged turns
      obtain ⟨next, hrest, hbesideNext, hnext⟩ := ih hmiddle hlogged
      exact ⟨next, hfirst.trans hrest, hbeside.trans hbesideNext, hnext⟩

/-- A run inside `dispatchTopic` that tracks nothing. -/
theorem alone_of_run {actions : List (Rounds.Action Index)} {broker : Broker Index}
    (hposition : loop.position = .passing trigger nowMs topics dispatched)
    (hactions : ∀ action ∈ actions, inTopic action = true ∧ counted action = 0)
    (hrun : run (Rounds.step lib backend) loop.broker actions = some broker) :
    Alone lib backend interval loop { loop with broker } := by
  induction actions generalizing loop with
  | nil =>
      obtain rfl : loop.broker = broker := Option.some.inj hrun
      exact .refl
  | cons action actions ih =>
      obtain ⟨middle, hstep, hrest⟩ := run_cons_eq_some.mp hrun
      obtain ⟨hinTopic, hcounted⟩ := hactions action List.mem_cons_self
      have hfirst : Alone lib backend interval loop _ := .visit hposition hinTopic hstep
      rw [hcounted, Nat.add_zero, ← hposition] at hfirst
      exact hfirst.trans (ih hposition
        (fun other hother => hactions other (List.mem_cons_of_mem _ hother)) hrest)

/-- Once the scan is over the expired keys go to the deleter. -/
theorem alone_expire (lib : Libraries Index) (backend : Backend) (interval : Duration)
    {keys : List Bytes} (hround : loop.broker.round = some ⟨topic, nowMs, [], .idle, keys⟩)
    (hposition : loop.position = .passing trigger nowMs topics dispatched)
    (hroom : loop.broker.queue.pending.length + keys.length ≤ pendingCapacity) :
    Alone lib backend interval loop
      { loop with
        broker := { loop.broker with
          queue := { loop.broker.queue with
            pending := loop.broker.queue.pending ++ keys }
          round := none } } := by
  refine alone_of_run hposition ?_
    (Redelivery.run_expire lib backend topic nowMs loop.broker hround hroom)
  intro action haction
  rcases List.mem_append.mp haction with hexpire | hfinish
  · rw [List.eq_of_mem_replicate hexpire]
    exact ⟨rfl, rfl⟩
  · rw [List.mem_singleton.mp hfinish]
    exact ⟨rfl, rfl⟩

end Steps

/-! ## The topics of a pass -/

section Topics

variable {start loop : Loop Index} {trigger : Trigger} {nowMs : Int64}
  {topics : List String}

/-- The loop is between two topics, where the pass has come so far. -/
structure Reaches (trigger : Trigger) (nowMs : Int64) (start : Loop Index)
    (topics : List String) (loop : Loop Index) (pass : Pass Index) : Prop where
  hub : loop.broker.hub = pass.hub
  dispatcher : loop.broker.dispatcher = pass.dispatcher
  round : loop.broker.round = none
  sm : loop.broker.sm = start.broker.sm
  clock : loop.broker.nowMs = start.broker.nowMs
  queue : loop.broker.queue = { start.broker.queue with
    pending := start.broker.queue.pending ++ pass.expiredKeys }
  position : loop.position = .passing trigger nowMs topics pass.dispatched
  logged : Logged start.broker.hub start.broker.log loop pass

/-- One call of `dispatchTopic` in the loop of `dispatchAll`. -/
theorem alone_topic (lib : Libraries Index) (backend : Backend) (interval : Duration)
    (turns : String → Bytes → Turn) (hreached : nowMs ≤ start.broker.nowMs)
    {pass : Pass Index} {topic : String}
    (hreaches : Reaches trigger nowMs start (topic :: topics) loop pass)
    {result : Pass Index}
    (hresult : Pass.topic lib start.broker.sm.repo.bucketSize
      (fun _ => start.broker.sm.db) turns nowMs pass topic = result)
    (hroom : start.broker.queue.pending.length + result.expiredKeys.length ≤
      pendingCapacity) :
    ∃ next, Alone lib backend interval loop next ∧
      Reaches trigger nowMs start topics next result := by
  have hbegin : step lib backend interval loop .beginTopic = some
      { loop with
        broker := { loop.broker with
          round := some ⟨topic, nowMs, dueScan loop.broker.sm.db (lib.topicHash topic)
            (loop.broker.sm.repo.bucketSize.bucket nowMs), .idle, []⟩ }
        position := .passing trigger nowMs topics pass.dispatched
        history := .scanned topic :: loop.history } := by
    simp [step, hreaches.position, Rounds.step, hreaches.round, hreaches.clock, hreached]
  have hbegun : Alone lib backend interval loop _ := .single rfl hbegin
  have hmirrors : Mirrors trigger nowMs topics topic
      (dueScan loop.broker.sm.db (lib.topicHash topic)
        (loop.broker.sm.repo.bucketSize.bucket nowMs)) pass.dispatched
      { loop with
        broker := { loop.broker with
          round := some ⟨topic, nowMs, dueScan loop.broker.sm.db (lib.topicHash topic)
            (loop.broker.sm.repo.bucketSize.bucket nowMs), .idle, []⟩ }
        position := .passing trigger nowMs topics pass.dispatched
        history := .scanned topic :: loop.history }
      (.begin pass.hub pass.dispatcher) :=
    ⟨hreaches.hub, hreaches.dispatcher, rfl, rfl⟩
  obtain ⟨scanned, hvisits, hbeside, hscanned, hlogged⟩ :=
    alone_visits lib backend interval hmirrors ⟨hreaches.logged.topics, rfl⟩ (turns topic)
  have hpass : (dueScan loop.broker.sm.db (lib.topicHash topic)
      (loop.broker.sm.repo.bucketSize.bucket nowMs)).foldl
        (visit lib topic nowMs (turns topic)) (.begin pass.hub pass.dispatcher) =
      dispatchTopic lib start.broker.sm.repo.bucketSize start.broker.sm.db (turns topic)
        pass.hub pass.dispatcher topic nowMs := by
    rw [dispatchTopic, hreaches.sm]
  rw [hpass] at hscanned hlogged
  subst hresult
  have hqueue : scanned.broker.queue = { start.broker.queue with
      pending := start.broker.queue.pending ++ pass.expiredKeys } :=
    hbeside.queue.trans hreaches.queue
  have hexpire := alone_expire lib backend interval hscanned.round hscanned.position (by
    rw [hqueue]
    simpa [Pass.topic, Nat.add_assoc] using hroom)
  refine ⟨_, (hbegun.trans hvisits).trans hexpire, hscanned.hub, hscanned.dispatcher, rfl,
    hbeside.sm.trans hreaches.sm, hbeside.nowMs.trans hreaches.clock, ?_,
    hscanned.position, hlogged.topics, ?_⟩
  · simp [hqueue, Pass.topic]
  · rw [Pass.topic, offersLog_append, List.append_assoc, ← hreaches.logged.log]
    exact hlogged.log

theorem length_expiredKeys_le_foldl {lib : Libraries Index} {size : TimeBucketSize}
    {snapshots : String → DB} {turns : String → Bytes → Turn} {pass : Pass Index} :
    pass.expiredKeys.length ≤ (topics.foldl
      (Pass.topic lib size snapshots turns nowMs) pass).expiredKeys.length := by
  induction topics generalizing pass with
  | nil => exact le_rfl
  | cons topic topics ih =>
      refine le_trans ?_ ih
      simp [Pass.topic]

theorem alone_topics (lib : Libraries Index) (backend : Backend) (interval : Duration)
    (turns : String → Bytes → Turn) (hreached : nowMs ≤ start.broker.nowMs)
    {pass : Pass Index} (hreaches : Reaches trigger nowMs start topics loop pass)
    {result : Pass Index}
    (hresult : topics.foldl (Pass.topic lib start.broker.sm.repo.bucketSize
      (fun _ => start.broker.sm.db) turns nowMs) pass = result)
    (hroom : start.broker.queue.pending.length + result.expiredKeys.length ≤
      pendingCapacity) :
    ∃ next, Alone lib backend interval loop next ∧
      Reaches trigger nowMs start [] next result := by
  induction topics generalizing loop pass with
  | nil =>
      subst hresult
      exact ⟨loop, .refl, hreaches⟩
  | cons topic topics ih =>
      rw [List.foldl_cons] at hresult
      have hle := hresult ▸ length_expiredKeys_le_foldl
      obtain ⟨middle, hfirst, hmiddle⟩ := alone_topic lib backend interval turns hreached
        hreaches rfl (le_trans (Nat.add_le_add_left hle _) hroom)
      obtain ⟨next, hrest, hnext⟩ := ih hmiddle hresult
      exact ⟨next, hfirst.trans hrest, hnext⟩

end Topics

/-! ## The whole pass -/

section Whole

variable {lib : Libraries Index} {backend : Backend} {interval : Duration}
  {start loop : Loop Index} {trigger : Trigger}

/-- The timer is set again after a pass, and the loop waits. -/
structure Completes (interval : Duration) (trigger : Trigger) (start next : Loop Index)
    (result : Pass Index) : Prop where
  position : next.position = .select
  timer : next.timer = .armed (nextDelay interval trigger result.dispatched)
  hub : next.broker.hub = result.hub
  dispatcher : next.broker.dispatcher = result.dispatcher
  sm : next.broker.sm = start.broker.sm
  queue : next.broker.queue = { start.broker.queue with
    pending := start.broker.queue.pending ++ result.expiredKeys }
  log : next.broker.log = offersLog start.broker.hub result.offers ++ start.broker.log

theorem completes_of_step {action : Action Index} {middle : Loop Index}
    {result : Pass Index} (hown : Action.own action = true)
    (hstep : step lib backend interval loop action = some middle)
    (hrest : ∃ next, Alone lib backend interval middle next ∧
      Completes interval trigger start next result) :
    ∃ next, Alone lib backend interval loop next ∧
      Completes interval trigger start next result :=
  hrest.imp fun _ hnext => ⟨(Alone.single hown hstep).trans hnext.1, hnext.2⟩

theorem alone_reset {dispatched : ℕ}
    (hposition : loop.position = .resetting trigger dispatched) :
    Alone lib backend interval loop
      { loop with
        timer := .armed (nextDelay interval trigger dispatched)
        position := .select } := by
  have hreset : step lib backend interval loop .reset = some
      { loop with
        timer := .armed (nextDelay interval trigger dispatched)
        position := .select } := by
    simp only [step, hposition]
  exact .single rfl hreset

/-- A pass that is given up before the first topic. -/
theorem completes_begin (hbroker : loop.broker = start.broker)
    (hposition : loop.position = .resetting trigger 0) :
    ∃ next, Alone lib backend interval loop next ∧
      Completes interval trigger start next
        (.begin start.broker.hub start.broker.dispatcher) := by
  refine ⟨_, alone_reset hposition, rfl, rfl, ?_, ?_, ?_, ?_, ?_⟩
  all_goals simp [hbroker, Pass.begin, offersLog]

/-- A pass over the topics that `ActiveTopics` has listed. -/
theorem completes_topics (turns : String → Bytes → Turn) {topics : List String}
    (hbroker : loop.broker = start.broker) (hround : start.broker.round = none)
    (hposition : loop.position = .stamping trigger topics) {result : Pass Index}
    (hresult : topics.foldl (Pass.topic lib start.broker.sm.repo.bucketSize
      (fun _ => start.broker.sm.db) turns start.broker.nowMs)
        (.begin start.broker.hub start.broker.dispatcher) = result)
    (hroom : start.broker.queue.pending.length + result.expiredKeys.length ≤
      pendingCapacity) :
    ∃ next, Alone lib backend interval loop next ∧
      Completes interval trigger start next result := by
  have hnow : step lib backend interval loop .now = some
      { loop with position := .passing trigger start.broker.nowMs topics 0 } := by
    simp only [step, hposition, hbroker]
  have hreaches : Reaches trigger start.broker.nowMs start topics
      { loop with position := .passing trigger start.broker.nowMs topics 0 }
      (.begin start.broker.hub start.broker.dispatcher) := by
    refine ⟨?_, ?_, ?_, ?_, ?_, ?_, rfl, rfl, ?_⟩
    all_goals simp [hbroker, hround, Pass.begin, offersLog]
  obtain ⟨finished, htopics, hfinished⟩ := alone_topics lib backend interval turns
    (Int64.le_refl _) hreaches hresult hroom
  have hend : step lib backend interval finished .endPass = some
      { finished with position := .resetting trigger result.dispatched } := by
    simp only [step, hfinished.position, hfinished.round]
  have hstamped : Alone lib backend interval loop _ := .single rfl hnow
  have hended : Alone lib backend interval finished _ := .single rfl hend
  exact ⟨_, ((hstamped.trans htopics).trans hended).trans (alone_reset rfl), rfl, rfl,
    hfinished.hub, hfinished.dispatcher, hfinished.sm, hfinished.queue,
    hfinished.logged.log⟩

end Whole

/-- Nobody comes between the steps of a pass: the loop then computes `dispatchAll`, with
the offers of the function in the log, sets its timer from the number of messages that the
function returns and leaves the expired keys to the deleter, if that has room for them. -/
theorem undisturbed_pass_is_dispatchAll (lib : Libraries Index) (backend : Backend)
    (interval : Duration) (turns : String → Bytes → Turn) (order : MapOrder)
    {isLeader : Bool} (hdirect : backend = .direct → isLeader = true)
    {loop : Loop Index} {trigger : Trigger} (hposition : loop.position = .asking trigger)
    (hround : loop.broker.round = none) {result : Pass Index}
    (hresult : dispatchAll lib loop.broker.sm.repo.bucketSize
      (fun _ => loop.broker.sm.db) turns loop.broker.nowMs order isLeader loop.broker.hub
        loop.broker.dispatcher = result)
    (hroom : loop.broker.queue.pending.length + result.expiredKeys.length ≤
      pendingCapacity) :
    ∃ next, Alone lib backend interval loop next ∧
      Completes interval trigger loop next result := by
  rw [dispatchAll] at hresult
  cases hconsumers : loop.broker.hub.hasConsumers with
  | false =>
      have hasked : step lib backend interval loop .hasConsumers = some
          { loop with position := .resetting trigger 0 } := by
        simp [step, hposition, hconsumers]
      rw [if_pos hconsumers] at hresult
      subst hresult
      exact completes_of_step rfl hasked (completes_begin rfl rfl)
  | true =>
      have hasked : step lib backend interval loop .hasConsumers = some
          { loop with position := .leading trigger } := by
        simp [step, hposition, hconsumers]
      rw [if_neg (by simp [hconsumers])] at hresult
      refine completes_of_step rfl hasked ?_
      cases hleader : isLeader with
      | false =>
          obtain rfl : backend = .raft := by
            cases backend with
            | raft => rfl
            | direct => simp [hleader] at hdirect
          have hfollows : step lib .raft interval
              { loop with position := .leading trigger } (.isLeader false) = some
                { loop with
                  position := .resetting trigger 0
                  history := .follower :: loop.history } := rfl
          rw [if_pos hleader] at hresult
          subst hresult
          exact completes_of_step rfl hfollows (completes_begin rfl rfl)
      | true =>
          have hleads : step lib backend interval
              { loop with position := .leading trigger } (.isLeader true) = some
                { loop with position := .listing trigger } := by
            cases backend <;> rfl
          have hlists : step lib backend interval
              { loop with position := .listing trigger } (.activeTopics order) = some
                { loop with
                  position := if (loop.broker.hub.activeTopics order).length = 0
                    then .resetting trigger 0
                    else .stamping trigger (loop.broker.hub.activeTopics order) } := rfl
          rw [if_neg (by simp [hleader])] at hresult
          refine completes_of_step rfl hleads (completes_of_step rfl hlists ?_)
          split_ifs at hresult ⊢ with hnone
          · subst hresult
            exact completes_begin rfl rfl
          · refine completes_topics turns ?_ hround ?_ hresult hroom
            · rfl
            · rfl

/-- A message is published after a consumer has come, and the timer fires. -/
def orderArrives : List (Action Bytes) :=
  [.register ⟨"c1", "orders", ""⟩, .others publishOrder, .fire, .receiveTick]

def orderTurns : String → Bytes → Turn := fun _ _ => ⟨0, 0, .sorted⟩

/-- What `dispatchAll` computes for the state of a loop. -/
def computed (loop : Loop Bytes) : Pass Bytes :=
  dispatchAll orderLibraries loop.broker.sm.repo.bucketSize (fun _ => loop.broker.sm.db)
    orderTurns loop.broker.nowMs .sorted true loop.broker.hub loop.broker.dispatcher

/-- The pass sends the message to the consumer, so the next one begins at once. -/
theorem undisturbed_pass_is_dispatchAll_orders :
    ∃ loop, run (step orderLibraries .direct 100)
        (.start 100 ⟨0, valid_zero⟩ 30000000000 10) orderArrives = some loop ∧
      ∃ next, Alone orderLibraries .direct 100 loop next ∧ next.position = .select ∧
        next.timer = .armed 0 ∧
        .sent ⟨"c1", "orders", ""⟩ (eventKey 5 7 1) ∈ next.broker.log := by
  have hexists : ∃ loop, run (step orderLibraries .direct 100)
      (.start 100 ⟨0, valid_zero⟩ 30000000000 10) orderArrives = some loop ∧
        loop.position = .asking .tick ∧ loop.broker.round.isNone ∧
        loop.broker.queue.pending.length + (computed loop).expiredKeys.length ≤
          pendingCapacity ∧
        (computed loop).dispatched = 1 ∧
        .sent ⟨"c1", "orders", ""⟩ (eventKey 5 7 1) ∈
          offersLog loop.broker.hub (computed loop).offers :=
    exists_finish_of_any (by decide +kernel)
  obtain ⟨loop, hrun, hposition, hround, hroom, hdispatched, hsent⟩ := hexists
  obtain ⟨next, hnext, hcompletes⟩ := undisturbed_pass_is_dispatchAll orderLibraries
    .direct 100 orderTurns .sorted (fun _ => rfl) hposition
    (Option.isNone_iff_eq_none.mp hround) rfl hroom
  refine ⟨loop, hrun, next, hnext, hcompletes.position, ?_, ?_⟩
  · rw [hcompletes.timer]
    exact congrArg (fun count => Timer.armed (nextDelay 100 .tick count)) hdispatched
  · rw [hcompletes.log]
    exact List.mem_append_left _ hsent

end FutureQ.LoopPass
