import FutureQ.Broker.Registry
import FutureQ.Broker.Suppression

/-!
# A pass over all topics

`dispatchAll` does nothing without consumers or on a follower.  Otherwise it asks the hub
for the active topics, reads the clock once and lets `dispatchTopic` walk over one topic
after the other, in the order in which Go hands out the keys of a map.  Every call takes
its own snapshot of the database.

`each_due_message_offered_once` says what a pass does in terms of the consumers that are
registered: as long as their topics have different hashes, it offers every due message of
each of them once, whatever the order of the topics, and returns the number of messages
that reached somebody.
-/

namespace FutureQ.DispatchAll

open FutureQ.ByteOrder
open FutureQ.OrderedStore
open FutureQ.Storage
open FutureQ.Keys
open FutureQ.Repository
open FutureQ.DueScan
open FutureQ.Consumers
open FutureQ.Dispatch
open FutureQ.Registry
open FutureQ.Suppression

variable {Index : Type}

section Definitions

variable (lib : Libraries Index) (size : TimeBucketSize) (snapshots : String → DB)
  (turns : String → Bytes → Turn) (nowMs : Int64)

/-- The round of the loop for one topic. -/
def Pass.topic (pass : Pass Index) (topic : String) : Pass Index :=
  let result := dispatchTopic lib size (snapshots topic) (turns topic) pass.hub
    pass.dispatcher topic nowMs
  { hub := result.hub
    dispatcher := result.dispatcher
    dispatched := pass.dispatched + result.dispatched
    expiredKeys := pass.expiredKeys ++ result.expiredKeys
    offers := pass.offers ++ result.offers }

/-- `dispatched` is the result of the Go function. -/
def dispatchAll (order : MapOrder) (isLeader : Bool) (hub : Hub)
    (dispatcher : Dispatcher) : Pass Index :=
  if hub.hasConsumers = false then .begin hub dispatcher
  else if isLeader = false then .begin hub dispatcher
  else if (hub.activeTopics order).length = 0 then .begin hub dispatcher
  else (hub.activeTopics order).foldl (Pass.topic lib size snapshots turns nowMs)
    (.begin hub dispatcher)

/-- The topic's snapshot holds the key as a message that is due, decodable, alive and
not in flight. -/
def Deliverable (dispatcher : Dispatcher) (key : Bytes) (topic : String) : Prop :=
  Due lib topic nowMs size key ∧ ∃ value ∈ (snapshots topic)[key]?,
    ∃ msg ∈ lib.unmarshal value, isExpired msg nowMs = false ∧
      ¬ dispatcher.Suppresses key (turns topic key).checkedAt

instance instDecidableDue (topic : String) (key : Bytes) :
    Decidable (Due lib topic nowMs size key) :=
  inferInstanceAs (Decidable (_ ∧ _))

instance instDecidableDeliverable (dispatcher : Dispatcher) (key : Bytes)
    (topic : String) :
    Decidable (Deliverable lib size snapshots turns nowMs dispatcher key topic) :=
  inferInstanceAs (Decidable (_ ∧ ∃ value ∈ _, ∃ msg ∈ _, _ ∧ ¬ _))

end Definitions

/-! ## One topic -/

section Topic

variable {lib : Libraries Index} {size : TimeBucketSize} {snapshots : String → DB}
  {turns : String → Bytes → Turn} {nowMs : Int64}

theorem count_offers_dispatchTopic (hub : Hub) (dispatcher : Dispatcher) (key : Bytes)
    (topic : String) :
    ((dispatchTopic lib size (snapshots topic) (turns topic) hub dispatcher topic
      nowMs).offers.map Offer.key).count key =
      if Deliverable lib size snapshots turns nowMs dispatcher key topic then 1
      else 0 := by
  have hle : offerCount lib topic nowMs (turns topic) size (snapshots topic) hub
      dispatcher key ≤ 1 := offerCount_le_one lib topic nowMs (turns topic) key
  have hone : offerCount lib topic nowMs (turns topic) size (snapshots topic) hub
      dispatcher key = 1 ↔
        Deliverable lib size snapshots turns nowMs dispatcher key topic := by
    cases hvalue : (snapshots topic)[key]? with
    | some value =>
        rw [offerCount_eq_one_iff lib topic nowMs (turns topic) hvalue, Deliverable,
          hvalue]
        simp
    | none =>
        -- a key that is not stored is not scanned
        simp only [Deliverable, hvalue, Option.mem_def, reduceCtorEq, false_and,
          exists_false, and_false, iff_false]
        intro hcount
        have hpos : 0 < offerCount lib topic nowMs (turns topic) size (snapshots topic)
            hub dispatcher key := by omega
        obtain ⟨offer, hoffer, rfl⟩ := List.mem_map.mp (List.count_pos_iff.mp hpos)
        obtain ⟨⟨value, hentry, -⟩, -, -⟩ :=
          madeFrom_of_mem_offers lib topic nowMs (turns topic) hoffer
        rw [(mem_scan_iff.mp hentry).1] at hvalue
        cases hvalue
  change offerCount lib topic nowMs (turns topic) size (snapshots topic) hub dispatcher
    key = _
  split_ifs with hdeliverable
  · exact hone.mpr hdeliverable
  · have hne : ¬ offerCount lib topic nowMs (turns topic) size (snapshots topic) hub
        dispatcher key = 1 := fun heq => hdeliverable (hone.mp heq)
    omega

/-- A topic with another hash leaves the key alone. -/
theorem suppresses_topic_iff {pass : Pass Index} {topic : String}
    {bucket topicHash eventID : UInt64} (hother : topicHash ≠ lib.topicHash topic)
    (now : ℕ) :
    (Pass.topic lib size snapshots turns nowMs pass topic).dispatcher.Suppresses
        (eventKey bucket topicHash eventID) now ↔
      pass.dispatcher.Suppresses (eventKey bucket topicHash eventID) now := by
  refine suppresses_foldl_iff lib topic nowMs (turns topic) ?_ (.begin pass.hub
    pass.dispatcher) now
  rintro ⟨key, value⟩ hentry rfl
  exact hother (eventKey_mem_dueScan_iff.mp hentry).2.1

/-- `dispatched` counts the offers that reached somebody. -/
theorem dispatched_visit {topic : String} (turns : Bytes → Turn) (pass : Pass Index)
    (entry : Bytes × Bytes)
    (hcounted : pass.dispatched =
      (pass.offers.filter fun offer => offer.receivers ≠ []).length) :
    (visit lib topic nowMs turns pass entry).dispatched =
      ((visit lib topic nowMs turns pass entry).offers.filter fun offer =>
        offer.receivers ≠ []).length := by
  rw [visit]
  rcases pass.dispatcher.inspect lib nowMs (turns entry.1).checkedAt entry.1 entry.2 with
    ⟨verdict, dispatcher⟩
  cases verdict with
  | inFlight => exact hcounted
  | undecodable => exact hcounted
  | expired => exact hcounted
  | deliverable msg =>
      have hlength := counted_dispatchToTopic (turns entry.1).order pass.hub topic
        (queueMessage entry.1 msg) entry.1
      rw [Counted] at hlength
      simp only [Pass.offer]
      split_ifs with hnobody
      · have hnone := List.length_eq_zero_iff.mp (hlength ▸ hnobody)
        simpa [hnone] using hcounted
      · have hsome : (pass.hub.dispatchToTopic (turns entry.1).order topic
            (queueMessage entry.1 msg) entry.1).receivers ≠ [] := by
          intro hnone
          rw [hnone] at hlength
          exact hnobody hlength
        simp [hsome, hcounted]

theorem dispatched_foldl {topic : String} (turns : Bytes → Turn)
    (entries : List (Bytes × Bytes)) {pass : Pass Index}
    (hcounted : pass.dispatched =
      (pass.offers.filter fun offer => offer.receivers ≠ []).length) :
    (entries.foldl (visit lib topic nowMs turns) pass).dispatched =
      ((entries.foldl (visit lib topic nowMs turns) pass).offers.filter fun offer =>
        offer.receivers ≠ []).length := by
  induction entries generalizing pass with
  | nil => exact hcounted
  | cons entry entries ih => exact ih (dispatched_visit turns pass entry hcounted)

end Topic

/-! ## All topics -/

section Topics

variable {lib : Libraries Index} {size : TimeBucketSize} {snapshots : String → DB}
  {turns : String → Bytes → Turn} {nowMs : Int64}

theorem deliverable_congr {first second : Dispatcher} {key : Bytes} {topic : String}
    (hsame : ∀ now, first.Suppresses key now ↔ second.Suppresses key now) :
    Deliverable lib size snapshots turns nowMs first key topic ↔
      Deliverable lib size snapshots turns nowMs second key topic := by
  simp only [Deliverable, hsame]

/-- Topics with different hashes share the keys out among them: a key is counted for the
topic of its hash, with the in-flight table of the start. -/
theorem count_offers_foldl {bucket topicHash eventID : UInt64} {topics : List String}
    (hdistinct : topics.Pairwise fun first second =>
      lib.topicHash first ≠ lib.topicHash second) (pass : Pass Index) :
    ((topics.foldl (Pass.topic lib size snapshots turns nowMs) pass).offers.map
        Offer.key).count (eventKey bucket topicHash eventID) =
      (pass.offers.map Offer.key).count (eventKey bucket topicHash eventID) +
        if ∃ topic ∈ topics, Deliverable lib size snapshots turns nowMs pass.dispatcher
          (eventKey bucket topicHash eventID) topic then 1 else 0 := by
  induction topics generalizing pass with
  | nil => simp
  | cons topic topics ih =>
      obtain ⟨hhead, hrest⟩ := List.pairwise_cons.mp hdistinct
      have hown : ((Pass.topic lib size snapshots turns nowMs pass topic).offers.map
          Offer.key).count (eventKey bucket topicHash eventID) =
            (pass.offers.map Offer.key).count (eventKey bucket topicHash eventID) +
              if Deliverable lib size snapshots turns nowMs pass.dispatcher
                (eventKey bucket topicHash eventID) topic then 1 else 0 := by
        rw [Pass.topic, List.map_append, List.count_append, count_offers_dispatchTopic]
      rw [List.foldl_cons, ih hrest, hown, Nat.add_assoc]
      congr 1
      by_cases hhash : topicHash = lib.topicHash topic
      · -- no other topic has this hash
        have hnone : ∀ dispatcher, ¬ ∃ other ∈ topics, Deliverable lib size snapshots
            turns nowMs dispatcher (eventKey bucket topicHash eventID) other := by
          rintro dispatcher ⟨other, hother, hdue, -⟩
          have hsame := ((due_eventKey_iff lib other nowMs).mp hdue).1
          exact hhead other hother (hhash.symm.trans hsame)
        rw [if_neg (hnone _)]
        simp only [List.exists_mem_cons_iff, hnone, or_false]
        rfl
      · have hskip : ¬ Deliverable lib size snapshots turns nowMs pass.dispatcher
            (eventKey bucket topicHash eventID) topic :=
          fun hdeliverable =>
            hhash ((due_eventKey_iff lib topic nowMs).mp hdeliverable.1).1
        rw [if_neg hskip, Nat.zero_add]
        simp only [List.exists_mem_cons_iff, hskip, false_or,
          deliverable_congr (suppresses_topic_iff hhash)]

theorem dispatched_foldl_topics {topics : List String} {pass : Pass Index}
    (hcounted : pass.dispatched =
      (pass.offers.filter fun offer => offer.receivers ≠ []).length) :
    (topics.foldl (Pass.topic lib size snapshots turns nowMs) pass).dispatched =
      ((topics.foldl (Pass.topic lib size snapshots turns nowMs) pass).offers.filter
        fun offer => offer.receivers ≠ []).length := by
  induction topics generalizing pass with
  | nil => exact hcounted
  | cons topic topics ih =>
      refine ih ?_
      have hown : (dispatchTopic lib size (snapshots topic) (turns topic) pass.hub
          pass.dispatcher topic nowMs).dispatched =
            ((dispatchTopic lib size (snapshots topic) (turns topic) pass.hub
              pass.dispatcher topic nowMs).offers.filter fun offer =>
                offer.receivers ≠ []).length := dispatched_foldl (turns topic) _ rfl
      rw [Pass.topic, List.filter_append, List.length_append, ← hcounted, ← hown]

end Topics

section ActiveTopics

variable {hub : Hub} {registered : List ConsumerEntry}

theorem pairwise_activeTopics (hrepresents : Represents hub registered)
    {lib : Libraries Index}
    (hhashes : ∀ first ∈ registered, ∀ second ∈ registered,
      lib.topicHash first.topic = lib.topicHash second.topic → first.topic = second.topic)
    (order : MapOrder) :
    (hub.activeTopics order).Pairwise fun first second =>
      lib.topicHash first ≠ lib.topicHash second := by
  have hnodup : (hub.activeTopics order).Nodup := nodup_arrange_keys order hub.topics
  refine List.Pairwise.imp_of_mem ?_ hnodup
  intro first second hfirst hsecond hne hhash
  obtain ⟨one, hone, rfl⟩ := (hrepresents.mem_activeTopics_iff order).mp hfirst
  obtain ⟨two, htwo, rfl⟩ := (hrepresents.mem_activeTopics_iff order).mp hsecond
  exact hne (hhashes one hone two htwo hhash)

theorem exists_activeTopic_iff (hrepresents : Represents hub registered)
    (order : MapOrder) {property : String → Prop} :
    (∃ topic ∈ hub.activeTopics order, property topic) ↔
      ∃ consumer ∈ registered, property consumer.topic := by
  constructor
  · rintro ⟨topic, htopic, hproperty⟩
    obtain ⟨consumer, hconsumer, rfl⟩ := (hrepresents.mem_activeTopics_iff order).mp htopic
    exact ⟨consumer, hconsumer, hproperty⟩
  · rintro ⟨consumer, hconsumer, hproperty⟩
    exact ⟨consumer.topic,
      (hrepresents.mem_activeTopics_iff order).mpr ⟨consumer, hconsumer, rfl⟩, hproperty⟩

/-- Without active topics nobody is registered. -/
theorem eq_nil_of_activeTopics (hrepresents : Represents hub registered)
    {order : MapOrder} (hnone : hub.activeTopics order = []) : registered = [] := by
  rw [List.eq_nil_iff_forall_not_mem]
  intro consumer hconsumer
  have htopic := (hrepresents.mem_activeTopics_iff order).mpr ⟨consumer, hconsumer, rfl⟩
  rw [hnone] at htopic
  cases htopic

end ActiveTopics

/-- A pass on the leader offers every message that is due, decodable, alive and not in
flight on the topic of a registered consumer exactly once, and no other message; the
order of the topics does not matter as long as their hashes are different.  It returns
how many of them reached somebody. -/
theorem each_due_message_offered_once (lib : Libraries Index) (size : TimeBucketSize)
    (snapshots : String → DB) (turns : String → Bytes → Turn) (nowMs : Int64)
    (order : MapOrder) (isLeader : Bool) {hub : Hub} {registered : List ConsumerEntry}
    (hrepresents : Represents hub registered)
    (hhashes : ∀ first ∈ registered, ∀ second ∈ registered,
      lib.topicHash first.topic = lib.topicHash second.topic → first.topic = second.topic)
    (dispatcher : Dispatcher) :
    (∀ bucket topicHash eventID,
      ((dispatchAll lib size snapshots turns nowMs order isLeader hub
          dispatcher).offers.map Offer.key).count (eventKey bucket topicHash eventID) =
        if isLeader = true ∧ ∃ consumer ∈ registered, Deliverable lib size snapshots turns
          nowMs dispatcher (eventKey bucket topicHash eventID) consumer.topic then 1
        else 0) ∧
      (dispatchAll lib size snapshots turns nowMs order isLeader hub
          dispatcher).dispatched =
        ((dispatchAll lib size snapshots turns nowMs order isLeader hub
          dispatcher).offers.filter fun offer => offer.receivers ≠ []).length := by
  have hnobody : hub.hasConsumers = false → registered = [] := by
    intro hnone
    by_contra hsome
    rw [hrepresents.hasConsumers_iff.mpr hsome] at hnone
    cases hnone
  rw [dispatchAll]
  split_ifs with hconsumers hleader htopics
  · exact ⟨fun _ _ _ => by simp [Pass.begin, hnobody hconsumers], rfl⟩
  · exact ⟨fun _ _ _ => by simp [Pass.begin, hleader], rfl⟩
  · have hempty := eq_nil_of_activeTopics hrepresents (List.length_eq_zero_iff.mp htopics)
    exact ⟨fun _ _ _ => by simp [Pass.begin, hempty], rfl⟩
  · refine ⟨fun bucket topicHash eventID => ?_, dispatched_foldl_topics rfl⟩
    rw [count_offers_foldl (pairwise_activeTopics hrepresents hhashes order)]
    simp [exists_activeTopic_iff hrepresents order, Pass.begin, hleader]

/-- One order is due for a consumer; another consumer waits on a topic without
messages. -/
theorem each_due_message_offered_once_orders :
    ((dispatchAll (tableLibraries (fun topic => UInt64.ofNat topic.length)
        [([1], Rounds.orderMessage)]) ⟨0, valid_zero⟩
        (fun _ => (∅ : DB).insert (eventKey 5 6 1) [1]) (fun _ _ => ⟨0, 0, .sorted⟩) 10
        .sorted true
        ((newHub.register ⟨"c1", "orders", ""⟩).register ⟨"c2", "bills", ""⟩)
        (newDispatcher 0)).offers.map Offer.key).count (eventKey 5 6 1) = 1 := by
  have hrepresents : Represents
      ((newHub.register ⟨"c1", "orders", ""⟩).register ⟨"c2", "bills", ""⟩)
      [⟨"c1", "orders", ""⟩, ⟨"c2", "bills", ""⟩] := by
    have hfirst : Represents (newHub.register ⟨"c1", "orders", ""⟩)
        [⟨"c1", "orders", ""⟩] := represents_newHub.register (by simp [newHub])
    exact hfirst.register (by decide +kernel)
  rw [(each_due_message_offered_once _ _ _ _ _ _ _ hrepresents (by decide +kernel) _).1]
  decide +kernel

end FutureQ.DispatchAll
