import FutureQ.Broker.Rounds

/-!
# Messages that were given back

A NACK takes the key out of the consumer's list in the hub, and so does the end
of a stream, but neither tells the dispatcher.  The in-flight table keeps the key
back until its own timeout, so the next pass sends the message only if the table
has no entry for it or the entry has timed out.
-/

namespace FutureQ.Redelivery

open FutureQ.ByteOrder
open FutureQ.OrderedStore
open FutureQ.Transition
open FutureQ.Storage
open FutureQ.Keys
open FutureQ.Repository
open FutureQ.Deleter
open FutureQ.DueScan
open FutureQ.Consumers
open FutureQ.Dispatch
open FutureQ.Rounds

variable {Index : Type}

/-! ## A pass with nothing in between -/

/-- The broker stands where `dispatchTopic` stands before the entries `rest`. -/
structure Follows (topic : String) (nowMs : Int64) (rest : List (Bytes × Bytes))
    (broker : Broker Index) (pass : Pass Index) : Prop where
  hub : broker.hub = pass.hub
  dispatcher : broker.dispatcher = pass.dispatcher
  round : broker.round = some ⟨topic, nowMs, rest, .idle, pass.expiredKeys⟩
  logged : ∀ offer ∈ pass.offers, ∀ receiver ∈ offer.receivers,
    .sent receiver offer.key ∈ broker.log

section Steps

variable (lib : Libraries Index) (backend : Backend) {broker : Broker Index}
variable {topic : String} {nowMs : Int64} {rest : List (Bytes × Bytes)}
variable {expiredKeys : List Bytes}

theorem step_check {entry : Bytes × Bytes}
    (hround : broker.round = some ⟨topic, nowMs, entry :: rest, .idle, expiredKeys⟩)
    (now : ℕ) :
    step lib backend broker (.check now) = some (broker.check lib
      ⟨topic, nowMs, entry :: rest, .idle, expiredKeys⟩ now entry rest) := by
  simp [step, hround]

theorem step_dispatch {key : Bytes} {msg : StoredMessage Index}
    (hround : broker.round =
      some ⟨topic, nowMs, rest, .checked key msg, expiredKeys⟩)
    (order : DispatchOrder) :
    step lib backend broker (.dispatch order) = some (broker.dispatch
      ⟨topic, nowMs, rest, .checked key msg, expiredKeys⟩ order key msg) := by
  simp [step, hround]

theorem step_track {key : Bytes}
    (hround : broker.round = some ⟨topic, nowMs, rest, .sent key, expiredKeys⟩)
    (now : ℕ) :
    step lib backend broker (.track now) = some { broker with
      dispatcher := broker.dispatcher.track key now topic
      round := some ⟨topic, nowMs, rest, .idle, expiredKeys⟩ } := by
  simp [step, hround]

variable (broker) in
/-- The hub is asked and the key is tracked if somebody got the message. -/
theorem exists_run_offer (pass : Pass Index) {key : Bytes}
    {msg : StoredMessage Index} (hhub : broker.hub = pass.hub)
    (hdispatcher : broker.dispatcher = pass.dispatcher)
    (hround : broker.round =
      some ⟨topic, nowMs, rest, .checked key msg, pass.expiredKeys⟩)
    (hlogged : ∀ offer ∈ pass.offers, ∀ receiver ∈ offer.receivers,
      .sent receiver offer.key ∈ broker.log) (turn : Turn) :
    ∃ actions next, run (step lib backend) broker actions = some next ∧
      Follows topic nowMs rest next (pass.offer topic turn key msg) ∧
      next.sm = broker.sm ∧ next.queue = broker.queue := by
  obtain ⟨hub, dispatcher, dispatched, expired, offers⟩ := pass
  subst hhub hdispatcher
  have hdispatch := step_dispatch lib backend hround turn.order
  have hoffers : ∀ offer ∈ offers ++ [offerIn broker.hub topic turn key msg],
      ∀ receiver ∈ offer.receivers, .sent receiver offer.key ∈
        (broker.dispatch ⟨topic, nowMs, rest, .checked key msg, expired⟩
          turn.order key msg).log := by
    intro offer hoffer receiver hreceiver
    rcases List.mem_append.mp hoffer with hbefore | hnew
    · exact List.mem_append_right _ (List.mem_cons_of_mem _
        (hlogged offer hbefore receiver hreceiver))
    · rw [List.mem_singleton.mp hnew] at hreceiver ⊢
      exact List.mem_append_left _ (List.mem_map.mpr
        ⟨receiver, List.mem_reverse.mpr hreceiver, rfl⟩)
  simp only [Pass.offer]
  split_ifs with hnobody
  · refine ⟨[_], _, run_cons_eq_some.mpr ⟨_, hdispatch, rfl⟩, ?_, rfl, rfl⟩
    exact ⟨rfl, rfl, by simp [Broker.dispatch, hnobody], hoffers⟩
  · have hsent : (broker.dispatch ⟨topic, nowMs, rest, .checked key msg, expired⟩
        turn.order key msg).round = some ⟨topic, nowMs, rest, .sent key, expired⟩ := by
      simp [Broker.dispatch, hnobody]
    refine ⟨[_, _], _, run_cons_eq_some.mpr ⟨_, hdispatch, run_cons_eq_some.mpr
      ⟨_, step_track lib backend hsent turn.storedAt, rfl⟩⟩, ?_, rfl, rfl⟩
    exact ⟨rfl, rfl, rfl, hoffers⟩

end Steps

/-- The steps of the callback, one after the other, are a visit. -/
theorem exists_run_visit (lib : Libraries Index) (backend : Backend)
    (turns : Bytes → Turn) {topic : String} {nowMs : Int64} {entry : Bytes × Bytes}
    {rest : List (Bytes × Bytes)} {broker : Broker Index} {pass : Pass Index}
    (hfollows : Follows topic nowMs (entry :: rest) broker pass) :
    ∃ actions next, run (step lib backend) broker actions = some next ∧
      Follows topic nowMs rest next (visit lib topic nowMs turns pass entry) ∧
      next.sm = broker.sm ∧ next.queue = broker.queue := by
  have hcheck := step_check lib backend hfollows.round (turns entry.1).checkedAt
  rcases hinspect : pass.dispatcher.inspect lib nowMs (turns entry.1).checkedAt
    entry.1 entry.2 with ⟨verdict, after⟩
  rw [Broker.check, hfollows.dispatcher, hinspect] at hcheck
  rw [visit, hinspect]
  cases verdict with
  | inFlight =>
      refine ⟨[_], _, run_cons_eq_some.mpr ⟨_, hcheck, rfl⟩, ?_, rfl, rfl⟩
      exact ⟨hfollows.hub, rfl, rfl, hfollows.logged⟩
  | undecodable =>
      refine ⟨[_], _, run_cons_eq_some.mpr ⟨_, hcheck, rfl⟩, ?_, rfl, rfl⟩
      exact ⟨hfollows.hub, rfl, rfl, hfollows.logged⟩
  | expired =>
      refine ⟨[_], _, run_cons_eq_some.mpr ⟨_, hcheck, rfl⟩, ?_, rfl, rfl⟩
      exact ⟨hfollows.hub, rfl, rfl, hfollows.logged⟩
  | deliverable msg =>
      simp only at hcheck
      obtain ⟨actions, next, hrun, hnext⟩ := exists_run_offer lib backend
        { broker with
          dispatcher := after
          round := some ⟨topic, nowMs, rest, .checked entry.1 msg, pass.expiredKeys⟩ }
        { pass with dispatcher := after } hfollows.hub rfl rfl hfollows.logged
        (turns entry.1)
      exact ⟨_ :: actions, next, run_cons_eq_some.mpr ⟨_, hcheck, hrun⟩, hnext⟩

theorem exists_run_visits (lib : Libraries Index) (backend : Backend)
    (turns : Bytes → Turn) {topic : String} {nowMs : Int64}
    {rest : List (Bytes × Bytes)} {broker : Broker Index} {pass : Pass Index}
    (hfollows : Follows topic nowMs rest broker pass) :
    ∃ actions next, run (step lib backend) broker actions = some next ∧
      Follows topic nowMs [] next (rest.foldl (visit lib topic nowMs turns) pass) ∧
      next.sm = broker.sm ∧ next.queue = broker.queue := by
  induction rest generalizing broker pass with
  | nil => exact ⟨[], broker, rfl, hfollows, rfl, rfl⟩
  | cons entry rest ih =>
      obtain ⟨first, middle, hfirst, hmiddle, hsm, hqueue⟩ :=
        exists_run_visit lib backend turns hfollows
      obtain ⟨others, next, hothers, hnext, hsmNext, hqueueNext⟩ := ih hmiddle
      exact ⟨first ++ others, next, (run_append_of_run hfirst others).trans hothers,
        hnext, hsmNext.trans hsm, hqueueNext.trans hqueue⟩

/-- Once the scan is over the expired keys go to the deleter one by one. -/
theorem run_expire (lib : Libraries Index) (backend : Backend) (topic : String)
    (nowMs : Int64) (broker : Broker Index) {keys : List Bytes}
    (hround : broker.round = some ⟨topic, nowMs, [], .idle, keys⟩)
    (hroom : broker.queue.pending.length + keys.length ≤ pendingCapacity) :
    run (step lib backend) broker (List.replicate keys.length .expire ++ [.finish]) =
      some { broker with
        queue := { broker.queue with pending := broker.queue.pending ++ keys }
        round := none } := by
  induction keys generalizing broker with
  | nil => simp [run, step, hround]
  | cons key keys ih =>
      have hexpire : step lib backend broker .expire = some { broker with
          queue := { broker.queue with pending := broker.queue.pending ++ [key] }
          round := some ⟨topic, nowMs, [], .idle, keys⟩ } := by
        have hnext : broker.queue.pending.length + 1 ≤ pendingCapacity := by
          rw [List.length_cons] at hroom
          omega
        simp [step, hround, Broker.enqueue, RetryQueue.step, RetryQueue.join, hnext]
      rw [List.length_cons, List.replicate_succ, List.cons_append, run_cons, hexpire]
      refine (ih _ rfl ?_).trans ?_
      · simp only [List.length_append, List.length_singleton]
        rw [List.length_cons] at hroom
        omega
      · simp

/-- The steps of a pass, with nothing in between, are `dispatchTopic`. -/
theorem exists_run_dispatchTopic (lib : Libraries Index) (backend : Backend)
    (turns : Bytes → Turn) {broker : Broker Index} (hround : broker.round = none)
    (topic : String) {nowMs : Int64} (hreached : nowMs ≤ broker.nowMs)
    {pass : Pass Index}
    (hpass : dispatchTopic lib broker.sm.repo.bucketSize broker.sm.db turns
      broker.hub broker.dispatcher topic nowMs = pass)
    (hroom : broker.queue.pending.length + pass.expiredKeys.length ≤
      pendingCapacity) :
    ∃ actions next, run (step lib backend) broker actions = some next ∧
      next.hub = pass.hub ∧ next.dispatcher = pass.dispatcher ∧
      next.queue = { broker.queue with
        pending := broker.queue.pending ++ pass.expiredKeys } ∧
      ∀ offer ∈ pass.offers, ∀ receiver ∈ offer.receivers,
        .sent receiver offer.key ∈ next.log := by
  have hbegin : step lib backend broker (.begin topic nowMs) = some { broker with
      round := some ⟨topic, nowMs, dueScan broker.sm.db (lib.topicHash topic)
        (broker.sm.repo.bucketSize.bucket nowMs), .idle, []⟩ } := by
    simp [step, hround, hreached]
  have hfollows : Follows topic nowMs (dueScan broker.sm.db (lib.topicHash topic)
      (broker.sm.repo.bucketSize.bucket nowMs)) ({ broker with
        round := some ⟨topic, nowMs, dueScan broker.sm.db (lib.topicHash topic)
          (broker.sm.repo.bucketSize.bucket nowMs), .idle, []⟩ } : Broker Index)
      (.begin broker.hub broker.dispatcher) :=
    ⟨rfl, rfl, rfl, by simp [Pass.begin]⟩
  obtain ⟨visits, scanned, hvisits, hscanned, -, hqueue⟩ :=
    exists_run_visits lib backend turns hfollows
  rw [dispatchTopic] at hpass
  rw [hpass] at hscanned
  have hexpire := run_expire lib backend topic nowMs scanned hscanned.round
    (by rw [hqueue]; exact hroom)
  refine ⟨_, _, run_cons_eq_some.mpr ⟨_, hbegin,
    (run_append_of_run hvisits _).trans hexpire⟩, hscanned.hub, hscanned.dispatcher,
    ?_, hscanned.logged⟩
  rw [hqueue]

/-! ## The pass after a message was given back -/

/-- The consumer, and nobody else, has the key in its list. -/
def OnlyHolder (hub : Hub) (id : String) (key : Bytes) : Prop :=
  key ∈ hub.held id ∧
    ∀ other ∈ hub.inFlightByConsumer.keys, key ∈ hub.held other → other = id

instance (hub : Hub) (id : String) (key : Bytes) :
    Decidable (OnlyHolder hub id key) :=
  inferInstanceAs (Decidable (_ ∧ _))

/-- The only consumer that holds the key refuses it or disconnects. -/
def Frees (hub : Hub) (key : Bytes) : Action Index → Prop
  | .ack consumer deliveryTag success =>
      deliveryTag = key ∧ success = false ∧ OnlyHolder hub consumer.id key
  | .unregister id => OnlyHolder hub id key
  | _ => False

instance (hub : Hub) (key : Bytes) (action : Action Index) :
    Decidable (Frees hub key action) :=
  match action with
  | .ack _ _ _ => inferInstanceAs (Decidable (_ ∧ _ ∧ _))
  | .unregister _ => inferInstanceAs (Decidable (OnlyHolder _ _ _))
  | .tick _ | .publish _ _ | .apply _ | .register _ | .receive _ | .begin _ _
  | .check _ | .dispatch _ | .track _ | .scanError | .expire | .finish | .drain
  | .deleteKeys _ | .reenqueue | .notify | .applyLate _ _ =>
      inferInstanceAs (Decidable False)

/-- A live message is stored under the key and due, and when the pass comes to it
a consumer that the hub would pick has room. -/
structure Sendable (lib : Libraries Index) (broker : Broker Index)
    (turns : Bytes → Turn) (topic : String) (nowMs : Int64) (key : Bytes) :
    Prop where
  due : ∃ entry ∈ dueScan broker.sm.db (lib.topicHash topic)
      (broker.sm.repo.bucketSize.bucket nowMs),
    entry.1 = key ∧ ∃ msg ∈ lib.unmarshal entry.2, isExpired msg nowMs = false
  ready : (hubAt lib topic nowMs turns broker.sm.repo.bucketSize broker.sm.db
    broker.hub broker.dispatcher key).Ready topic

instance (lib : Libraries Index) (broker : Broker Index) (turns : Bytes → Turn)
    (topic : String) (nowMs : Int64) (key : Bytes) :
    Decidable (Sendable lib broker turns topic nowMs key) :=
  decidable_of_iff (_ ∧ _) ⟨fun h => ⟨h.1, h.2⟩, fun h => ⟨h.due, h.ready⟩⟩

/-- A pass over the topic sends the key to somebody. -/
def Sends (lib : Libraries Index) (broker : Broker Index) (turns : Bytes → Turn)
    (topic : String) (nowMs : Int64) (key : Bytes) : Prop :=
  ∃ offer ∈ (dispatchTopic lib broker.sm.repo.bucketSize broker.sm.db turns
      broker.hub broker.dispatcher topic nowMs).offers,
    offer.key = key ∧ offer.receivers ≠ []

instance (lib : Libraries Index) (broker : Broker Index) (turns : Bytes → Turn)
    (topic : String) (nowMs : Int64) (key : Bytes) :
    Decidable (Sends lib broker turns topic nowMs key) :=
  inferInstanceAs (Decidable (∃ offer ∈ _, _ ∧ _))

theorem reachable_hub {lib : Libraries Index} {broker next : Broker Index}
    {action : Action Index} (hreachable : broker.hub.Reachable)
    (heffect : Effect lib broker action next) : next.hub.Reachable := by
  cases heffect with
  | register consumer => exact .register consumer hreachable
  | unregister id => exact .unregister id hreachable
  | receive id => exact .receive id hreachable
  | nack consumer deliveryTag =>
      exact .removeInFlightForConsumer consumer.id deliveryTag hreachable
  | ack consumer deliveryTag =>
      exact .removeInFlightForConsumer consumer.id deliveryTag hreachable
  | dispatch order round key msg hround hhand =>
      exact .dispatchToTopic order round.topic (queueMessage key msg) key hreachable
  | _ => exact hreachable

theorem reachable_of_run {lib : Libraries Index} {backend : Backend}
    {bucketSize : TimeBucketSize} {inFlightTimeout : Duration} {startMs : Int64}
    {actions : List (Action Index)} {broker : Broker Index}
    (hrun : run (step lib backend) (.start bucketSize inFlightTimeout startMs)
      actions = some broker) : broker.hub.Reachable := by
  have heffects : ∀ broker action next, Hub.Reachable broker.hub → True →
      Effect lib broker action next → next.hub.Reachable :=
    fun _ _ _ hreachable _ heffect => reachable_hub hreachable heffect
  exact run_effects heffects (stocked_start _ _ _) .newHub
    (meets_of_forall (fun _ _ => trivial) _ _) hrun

/-- A NACK and the end of a stream leave the in-flight table alone. -/
theorem dispatcher_of_frees {lib : Libraries Index} {backend : Backend}
    {before after : Broker Index} {action : Action Index} {key : Bytes}
    (hfrees : Frees before.hub key action)
    (hstep : step lib backend before action = some after) :
    after.dispatcher = before.dispatcher := by
  cases action with
  | ack consumer deliveryTag success =>
      obtain ⟨-, rfl, -⟩ := hfrees
      cases hstep
      rfl
  | unregister id =>
      cases hstep
      rfl
  | _ => cases hfrees

/-- After the only holder of a message refuses it or disconnects, the next pass
sends it exactly when the dispatcher's own entry for it is absent or has timed
out. -/
theorem freed_message_sent_iff (lib : Libraries Index) (backend : Backend)
    (bucketSize : TimeBucketSize) (inFlightTimeout : Duration) (startMs : Int64)
    {actions : List (Action Index)} {before after : Broker Index}
    {action : Action Index} {key : Bytes}
    (hrun : run (step lib backend) (.start bucketSize inFlightTimeout startMs)
      actions = some before)
    (hfrees : Frees before.hub key action)
    (hstep : step lib backend before action = some after) (turns : Bytes → Turn)
    {topic : String} {nowMs : Int64}
    (hsendable : Sendable lib after turns topic nowMs key) :
    Sends lib after turns topic nowMs key ↔
      ¬ before.dispatcher.Suppresses key (turns key).checkedAt := by
  have hreachable : after.hub.Reachable := by
    apply reachable_of_run
    exact (run_append_of_run hrun [action]).trans
      (run_cons_eq_some.mpr ⟨after, hstep, rfl⟩)
  rw [← dispatcher_of_frees hfrees hstep]
  obtain ⟨⟨_, value⟩, hentry, rfl, msg, hdecodes, halive⟩ := hsendable.due
  constructor
  · rintro ⟨offer, hoffer, hkey, -⟩
    obtain ⟨-, hfree, -⟩ :=
      (mem_offers_dispatchTopic_iff lib topic nowMs turns hentry hkey).mp hoffer
    exact hfree
  · intro hfree
    refine ⟨_, offerIn_mem_offers lib topic nowMs turns after.hub hentry hfree
      hdecodes halive, rfl, ?_⟩
    apply receivers_dispatchToTopic_ne_nil _ hsendable.ready
    rw [Hub.Filed, topics_hubAt]
    exact hreachable.filed

/-- A group of two consumers, of which the first is sent the message. -/
def sendToFirst : List (Action Bytes) :=
  [.register ⟨"c1", "orders", "billing"⟩, .register ⟨"c2", "orders", "billing"⟩,
    publishOrder, .begin "orders" 10, .check 0, .dispatch .sorted, .track 0, .finish]

def nackFirst : Action Bytes := .ack ⟨"c1", "orders", "billing"⟩ orderKey false

theorem freed_message_sent_iff_timedOut :
    ∃ before after,
      run (step orderLibraries .direct) orderBroker sendToFirst = some before ∧
      step orderLibraries .direct before nackFirst = some after ∧
      Sends orderLibraries after (fun _ => ⟨30000000000, 30000000000, .sorted⟩)
        "orders" 10 orderKey := by
  have hfinish : ∃ before,
      run (step orderLibraries .direct) orderBroker sendToFirst = some before ∧
      Frees before.hub orderKey nackFirst ∧
      ¬ before.dispatcher.Suppresses orderKey 30000000000 ∧
      ∃ after ∈ step orderLibraries .direct before nackFirst,
        Sendable orderLibraries after (fun _ => ⟨30000000000, 30000000000, .sorted⟩)
          "orders" 10 orderKey :=
    exists_finish_of_any (by decide +kernel)
  obtain ⟨before, hrun, hfrees, hfree, after, hstep, hsendable⟩ := hfinish
  exact ⟨before, after, hrun, hstep, (freed_message_sent_iff _ _ _ _ _ hrun hfrees
    hstep _ hsendable).mpr hfree⟩

/-- Right after the first consumer refuses the message or disconnects, a pass
leaves it out: it is in flight although no consumer holds it and the deleter is
empty. -/
theorem freed_message_kept_back :
    ∃ before,
      run (step orderLibraries .direct) orderBroker sendToFirst = some before ∧
      ∀ action ∈ [nackFirst, .unregister "c1"],
        Frees before.hub orderKey action ∧
        ∃ after ∈ step orderLibraries .direct before action,
          Sendable orderLibraries after (fun _ => ⟨1, 1, .sorted⟩) "orders" 10
            orderKey ∧
          ¬ Sends orderLibraries after (fun _ => ⟨1, 1, .sorted⟩) "orders" 10
            orderKey ∧
          after.dispatcher.Suppresses orderKey 1 ∧
          (∀ id ∈ after.hub.inFlightByConsumer.keys,
            orderKey ∉ after.hub.held id) ∧
          after.queue.pending = [] ∧ after.queue.phase = .idle :=
  exists_finish_of_any (by decide +kernel)

end FutureQ.Redelivery
