import FutureQ.Broker.Dispatcher
import FutureQ.Storage.XXHash

/-!
# Topics with one hash

Keys carry the hash of a topic, not its name, and the callback of
`dispatchTopic` does not look at the topic of the message it decodes.  A
consumer therefore gets whatever lies under the hash of its topic.
-/

namespace FutureQ.Isolation

open FutureQ.ByteOrder
open FutureQ.OrderedStore
open FutureQ.Storage
open FutureQ.Keys
open FutureQ.Repository
open FutureQ.DueScan
open FutureQ.Consumers
open FutureQ.Dispatch

variable {Index : Type}

/-- Consumers that register on these topics only are sent messages of their own
topic, in every pass over every such hub. -/
def Isolates (lib : Libraries Index) (size : TimeBucketSize) (db : DB)
    (topics : Set String) : Prop :=
  ∀ hub : Hub, hub.Reachable → (∀ topic ∈ hub.topics, topic ∈ topics) →
    ∀ (turns : Bytes → Turn) (dispatcher : Dispatcher) (topic : String)
      (nowMs : Int64),
      ∀ offer ∈ (dispatchTopic lib size db turns hub dispatcher topic nowMs).offers,
        ∀ receiver ∈ offer.receivers,
          (queueMessage offer.key offer.msg).topic = receiver.topic

/-- What a pass over one of these topics would decode and find alive is a
message of that topic. -/
def OwnMessages (lib : Libraries Index) (size : TimeBucketSize) (db : DB)
    (topics : Set String) : Prop :=
  ∀ topic ∈ topics, ∀ nowMs : Int64,
    ∀ entry ∈ dueScan db (lib.topicHash topic) (size.bucket nowMs),
      ∀ msg, lib.unmarshal entry.2 = some msg → isExpired msg nowMs = false →
        msg.topic = topic

theorem mem_topics_of_getElem? {hub : Hub} {topic : String}
    {sub : TopicSubscription} (hsub : hub.topics[topic]? = some sub) :
    topic ∈ hub.topics := by
  rw [Std.ExtTreeMap.mem_iff_isSome_getElem?, hsub]
  rfl

theorem topic_of_mem_receivers {hub met : Hub} (hfiled : hub.Filed)
    (htopics : met.topics = hub.topics) {order : DispatchOrder} {topic : String}
    {msg : QueueMessage} {deliveryTag : Bytes} {receiver : ConsumerEntry}
    (hreceiver : receiver ∈
      (met.dispatchToTopic order topic msg deliveryTag).receivers) :
    topic ∈ hub.topics ∧ receiver.topic = topic := by
  obtain ⟨sub, hsub, hlists⟩ := receivers_dispatchToTopic hreceiver
  rw [htopics] at hsub
  have hsubFiled := hfiled topic sub hsub
  refine ⟨mem_topics_of_getElem? hsub, ?_⟩
  rcases hlists with ⟨gid, hmember⟩ | ⟨id, hmember⟩
  · exact (hsubFiled.groups gid receiver hmember).1
  · exact (hsubFiled.universal id receiver hmember).1

/-! ## A pass in which only one key is free -/

def onlyFree (db : DB) (key : Bytes) : Dispatcher where
  inFlight := (db.erase key).map fun _ _ => ⟨0, ""⟩
  inFlightTimeout := 1

def atOnce (_ : Bytes) : Turn := ⟨0, 0, .sorted⟩

theorem onlyFree_suppresses_iff {db : DB} {key other : Bytes} :
    (onlyFree db key).Suppresses other 0 ↔ other ∈ db ∧ other ≠ key := by
  rw [Dispatcher.Suppresses, onlyFree, Std.ExtTreeMap.mem_iff_isSome_getElem?]
  by_cases hkey : key = other
  · subst hkey
    simp
  · simp only [Std.ExtTreeMap.getElem?_map, getElem?_erase_ne hkey]
    cases db[other]? with
    | none => simp
    | some value => simp [Ne.symm hkey]

theorem visit_of_suppressed (lib : Libraries Index) (topic : String)
    (nowMs : Int64) {turns : Bytes → Turn} {pass : Pass Index}
    {entry : Bytes × Bytes}
    (hsuppressed : pass.dispatcher.Suppresses entry.1 (turns entry.1).checkedAt) :
    visit lib topic nowMs turns pass entry = pass := by
  obtain ⟨inFlight, hinFlight, hrunning⟩ := hsuppressed
  rw [visit, Dispatcher.inspect, Dispatcher.isInFlight, hinFlight]
  simp only [if_pos hrunning]

theorem hubAt_onlyFree (lib : Libraries Index) (topic : String) (nowMs : Int64)
    (size : TimeBucketSize) (db : DB) (hub : Hub) (key : Bytes) :
    hubAt lib topic nowMs atOnce size db hub (onlyFree db key) key = hub := by
  have hloop : ∀ entries : List (Bytes × Bytes),
      (∀ entry ∈ entries, (onlyFree db key).Suppresses entry.1 0) →
      entries.foldl (visit lib topic nowMs atOnce)
        (.begin hub (onlyFree db key)) = .begin hub (onlyFree db key) := by
    intro entries
    induction entries with
    | nil => exact fun _ => rfl
    | cons entry entries ih =>
        intro hentries
        obtain ⟨hentry, hrest⟩ := List.forall_mem_cons.mp hentries
        rw [List.foldl_cons, visit_of_suppressed lib topic nowMs hentry]
        exact ih hrest
  rw [hubAt, passAt, hloop]
  · rfl
  · rintro ⟨other, value⟩ hentry
    rw [onlyFree_suppresses_iff]
    have hne : other ≠ key := by simpa using List.mem_takeWhile_imp hentry
    have hscan := (List.takeWhile_sublist _).mem hentry
    refine ⟨?_, hne⟩
    rw [Std.ExtTreeMap.mem_iff_isSome_getElem?, (mem_scan_iff.mp hscan).1]
    rfl

/-- A hub whose only consumer is on the topic. -/
def oneConsumer (topic : String) : Hub := newHub.register ⟨"consumer", topic, ""⟩

theorem ready_oneConsumer (topic : String) : (oneConsumer topic).Ready topic := by
  refine ⟨newTopicSubscription.add ⟨"consumer", topic, ""⟩, ?_, .inr
    ⟨"consumer", ⟨"consumer", topic, ""⟩, ?_, ?_⟩⟩
  · simp [oneConsumer, Hub.register, Hub.subscription, newHub]
  · simp [TopicSubscription.add, ConsumerEntry.isUniversal]
  · simp [oneConsumer, Hub.register, Hub.hasRoom, Hub.waiting, channelCapacity]

theorem eq_of_mem_oneConsumer {topic other : String}
    (hmem : other ∈ (oneConsumer topic).topics) : other = topic := by
  simp [oneConsumer, Hub.register, newHub] at hmem
  exact hmem.symm

/-- Topics are isolated exactly when whatever is stored under the hash of a
topic belongs to that topic. -/
theorem topics_isolated_iff (lib : Libraries Index) (size : TimeBucketSize)
    (db : DB) (topics : Set String) :
    Isolates lib size db topics ↔ OwnMessages lib size db topics := by
  constructor
  · intro hisolates topic htopic nowMs entry hentry msg hdecodes halive
    have hreachable : (oneConsumer topic).Reachable :=
      .register ⟨"consumer", topic, ""⟩ .newHub
    have hfree : ¬ (onlyFree db entry.1).Suppresses entry.1 0 := by
      rw [onlyFree_suppresses_iff]
      exact fun hboth => hboth.2 rfl
    have hoffer := offerIn_mem_offers lib topic nowMs atOnce (oneConsumer topic)
      hentry hfree hdecodes halive
    rw [hubAt_onlyFree] at hoffer
    obtain ⟨receiver, hreceiver⟩ := List.exists_mem_of_ne_nil _
      (receivers_dispatchToTopic_ne_nil hreachable.filed (ready_oneConsumer topic)
        (atOnce entry.1).order (queueMessage entry.1 msg) entry.1)
    have hown := hisolates (oneConsumer topic) hreachable
      (fun other hother => eq_of_mem_oneConsumer hother ▸ htopic) atOnce _ topic nowMs
      _ hoffer receiver hreceiver
    exact hown.trans (topic_of_mem_receivers hreachable.filed rfl hreceiver).2
  · intro hown hub hreachable htopics turns dispatcher topic nowMs offer hoffer
      receiver hreceiver
    have hmade := madeFrom_of_mem_offers lib topic nowMs turns hoffer
    obtain ⟨value, hentry, hdecodes⟩ := hmade.entry
    obtain ⟨met, order, hmet, hreceivers⟩ := hmade.receivers
    rw [hreceivers] at hreceiver
    obtain ⟨hactive, htopic⟩ :=
      topic_of_mem_receivers hreachable.filed hmet hreceiver
    rw [htopic]
    exact hown topic (htopics topic hactive) nowMs _ hentry _ hdecodes hmade.alive

/-- A message of one of the two colliding topics. -/
def sensorMessage : StoredMessage Bytes := ⟨"orders.eu.sensor", [9], 5, 0, 0, []⟩

/-- A consumer of the other topic is sent the message. -/
theorem colliding_topic_is_delivered :
    "orders.eu.sensor" ≠ "btqmwuxk3GLi/.u." ∧
      XXHash.sum64String "orders.eu.sensor" =
        XXHash.sum64String "btqmwuxk3GLi/.u." ∧
      ∃ offer ∈ (dispatchTopic
          (tableLibraries XXHash.sum64String [([1], sensorMessage)])
          ⟨0, .inl rfl⟩
          ((∅ : DB).insert (eventKey 5 (XXHash.sum64String "orders.eu.sensor") 1) [1])
          atOnce (newHub.register ⟨"c1", "btqmwuxk3GLi/.u.", ""⟩) (newDispatcher 0)
          "btqmwuxk3GLi/.u." 5).offers,
        (queueMessage offer.key offer.msg).topic = "orders.eu.sensor" ∧
          offer.receivers = [⟨"c1", "btqmwuxk3GLi/.u.", ""⟩] := by
  refine ⟨XXHash.sum64String_collides.1, XXHash.sum64String_collides.2, ?_⟩
  decide +kernel

end FutureQ.Isolation
