import FutureQ.Core.ByteOrder
import FutureQ.Core.OrderedStore

/-!
# The consumer hub

`Hub` indexes the connected consumers by topic and group.  A message goes to one
consumer of every group, picked by the round-robin strategy, and to every
universal consumer.  Go ranges over a map in an arbitrary order, so every
operation that ranges over one takes the order as an argument.  Buffered
channels belong to the consumers' streams; the hub sees them through their
identifier.
-/

namespace FutureQ.Consumers

open FutureQ.ByteOrder
open FutureQ.OrderedStore

/-- A Go map with string keys. -/
abbrev Table (V : Type) := Contents String V

/-- The order in which one `range` visits the keys of a map. -/
structure MapOrder where
  arrange : List String → List String
  perm : ∀ keys, (arrange keys).Perm keys

def MapOrder.sorted : MapOrder := ⟨id, fun _ => .refl _⟩

/-- The orders in which one `DispatchToTopic` meets the groups and the universal
consumers. -/
structure DispatchOrder where
  groups : MapOrder
  universal : MapOrder

def DispatchOrder.sorted : DispatchOrder := ⟨.sorted, .sorted⟩

structure QueueMessage where
  topic : String
  payload : Bytes
  deliveryTag : Bytes
  enqueuedAtUnixMs : Int64
  delayMs : Int64
  deriving DecidableEq, Repr

structure ConsumerEntry where
  id : String
  topic : String
  group : String
  deriving DecidableEq, Repr

def ConsumerEntry.isUniversal (consumer : ConsumerEntry) : Bool :=
  consumer.group = ""

def ConsumerEntry.groupKey (consumer : ConsumerEntry) : String :=
  if consumer.group = "" then
    consumer.topic ++ "|__universal__|" ++ consumer.id
  else consumer.topic ++ "|" ++ consumer.group

structure TopicSubscription where
  groups : Table (List ConsumerEntry)
  universal : Table ConsumerEntry
  deriving DecidableEq

def newTopicSubscription : TopicSubscription := ⟨∅, ∅⟩

def TopicSubscription.group (sub : TopicSubscription) (gid : String) :
    List ConsumerEntry :=
  sub.groups[gid]?.getD []

def TopicSubscription.add (sub : TopicSubscription) (consumer : ConsumerEntry) :
    TopicSubscription :=
  if consumer.isUniversal then
    { sub with universal := sub.universal.insert consumer.id consumer }
  else
    { sub with groups :=
        sub.groups.insert consumer.group (sub.group consumer.group ++ [consumer]) }

/-- `remove` without its result, which is `isEmpty` of what it leaves.  Of a
group the first entry with the consumer's ID goes. -/
def TopicSubscription.remove (sub : TopicSubscription) (consumer : ConsumerEntry) :
    TopicSubscription :=
  if consumer.isUniversal then
    { sub with universal := sub.universal.erase consumer.id }
  else
    let group := (sub.group consumer.group).eraseP fun entry =>
      entry.id = consumer.id
    if group = [] then { sub with groups := sub.groups.erase consumer.group }
    else { sub with groups := sub.groups.insert consumer.group group }

def TopicSubscription.isEmpty (sub : TopicSubscription) : Bool :=
  sub.groups.isEmpty && sub.universal.isEmpty

/-- `next` are the counters of the round-robin strategy and `channels` the
messages waiting in the channel of each consumer. -/
structure Hub where
  topics : Table TopicSubscription
  byID : Table ConsumerEntry
  inFlightByConsumer : Table (List Bytes)
  next : Table UInt64
  channels : Table (List QueueMessage)

def newHub : Hub := ⟨∅, ∅, ∅, ∅, ∅⟩

/-- The capacity of the channel that `Subscribe` makes. -/
def channelCapacity : ℕ := 1024

def Hub.subscription (hub : Hub) (topic : String) : TopicSubscription :=
  hub.topics[topic]?.getD newTopicSubscription

def Hub.waiting (hub : Hub) (id : String) : List QueueMessage :=
  hub.channels[id]?.getD []

def Hub.held (hub : Hub) (id : String) : List Bytes :=
  hub.inFlightByConsumer[id]?.getD []

/-- `Register` with the fresh channel of a `Subscribe` call. -/
def Hub.register (hub : Hub) (consumer : ConsumerEntry) : Hub :=
  { hub with
    topics := hub.topics.insert consumer.topic
      ((hub.subscription consumer.topic).add consumer)
    byID := hub.byID.insert consumer.id consumer
    channels := hub.channels.insert consumer.id [] }

def Hub.unregister (hub : Hub) (id : String) : Hub :=
  match hub.byID[id]? with
  | none => hub
  | some entry =>
      let topics := match hub.topics[entry.topic]? with
        | none => hub.topics
        | some sub =>
            if (sub.remove entry).isEmpty then hub.topics.erase entry.topic
            else hub.topics.insert entry.topic (sub.remove entry)
      { hub with
        topics
        byID := hub.byID.erase id
        inFlightByConsumer := hub.inFlightByConsumer.erase id }

/-- `RoundRobinStrategy.Select`. -/
def Hub.select (hub : Hub) (candidates : List ConsumerEntry) :
    Option ConsumerEntry × Hub :=
  match candidates with
  | [] => (none, hub)
  | first :: _ =>
      let idx := hub.next[first.groupKey]?.getD 0
      let count := UInt64.ofNat candidates.length
      (candidates[(idx % count).toNat]?,
        { hub with next := hub.next.insert first.groupKey ((idx + 1) % count) })

/-- `trySend`: a full channel is skipped. -/
def Hub.trySend (hub : Hub) (consumer : ConsumerEntry) (msg : QueueMessage)
    (deliveryTag : Bytes) : Bool × Hub :=
  if (hub.waiting consumer.id).length < channelCapacity then
    (true, { hub with
      channels := hub.channels.insert consumer.id
        (hub.waiting consumer.id ++ [msg])
      inFlightByConsumer := hub.inFlightByConsumer.insert consumer.id
        (hub.held consumer.id ++ [deliveryTag]) })
  else (false, hub)

/-- The variables of `DispatchToTopic`, with the consumers that got the
message. -/
structure Delivery where
  hub : Hub
  sentTo : List String
  receivers : List ConsumerEntry

def Delivery.send (delivery : Delivery) (msg : QueueMessage) (deliveryTag : Bytes)
    (gid : String) (consumer : ConsumerEntry) : Delivery :=
  match delivery.hub.trySend consumer msg deliveryTag with
  | (true, hub) =>
      ⟨hub, delivery.sentTo ++ [gid], delivery.receivers ++ [consumer]⟩
  | (false, hub) => { delivery with hub }

def Delivery.sendToGroup (sub : TopicSubscription) (msg : QueueMessage)
    (deliveryTag : Bytes) (delivery : Delivery) (gid : String) : Delivery :=
  match delivery.hub.select (sub.group gid) with
  | (none, hub) => { delivery with hub }
  | (some selected, hub) =>
      Delivery.send { delivery with hub } msg deliveryTag gid selected

def Delivery.sendToUniversal (sub : TopicSubscription) (msg : QueueMessage)
    (deliveryTag : Bytes) (delivery : Delivery) (id : String) : Delivery :=
  match sub.universal[id]? with
  | none => delivery
  | some consumer => delivery.send msg deliveryTag "" consumer

def Hub.dispatchToTopic (order : DispatchOrder) (hub : Hub) (topic : String)
    (msg : QueueMessage) (deliveryTag : Bytes) : Delivery :=
  match hub.topics[topic]? with
  | none => ⟨hub, [], []⟩
  | some sub =>
      let delivery := (order.groups.arrange sub.groups.keys).foldl
        (Delivery.sendToGroup sub msg deliveryTag) ⟨hub, [], []⟩
      (order.universal.arrange sub.universal.keys).foldl
        (Delivery.sendToUniversal sub msg deliveryTag) delivery

/-- `RemoveInFlightForConsumer` drops the first occurrence of the key. -/
def Hub.removeInFlightForConsumer (hub : Hub) (consumerID : String) (key : Bytes) :
    Hub :=
  if key ∈ hub.held consumerID then
    { hub with inFlightByConsumer :=
        hub.inFlightByConsumer.insert consumerID ((hub.held consumerID).erase key) }
  else hub

/-- The sender goroutine takes the next message out of the channel. -/
def Hub.receive (hub : Hub) (id : String) : Hub :=
  { hub with channels := hub.channels.insert id (hub.waiting id).tail }

def Hub.activeTopics (order : MapOrder) (hub : Hub) : List String :=
  order.arrange hub.topics.keys

def Hub.hasConsumers (hub : Hub) : Bool := !hub.byID.isEmpty

/-! ## Who can receive a message -/

/-- The consumers of a topic that a dispatch can reach. -/
def TopicSubscription.Lists (sub : TopicSubscription) (consumer : ConsumerEntry) :
    Prop :=
  (∃ gid, consumer ∈ sub.group gid) ∨
    ∃ id : String, sub.universal[id]? = some consumer

/-- A dispatch changes channels, in-flight lists and counters only, and keeps
what it has sent. -/
structure Delivery.Extends (before after : Delivery) : Prop where
  topics : after.hub.topics = before.hub.topics
  byID : after.hub.byID = before.hub.byID
  receivers : before.receivers <+: after.receivers

theorem Delivery.Extends.refl (delivery : Delivery) : delivery.Extends delivery :=
  ⟨rfl, rfl, List.prefix_rfl⟩

theorem Delivery.Extends.trans {first second third : Delivery}
    (hfirst : first.Extends second) (hsecond : second.Extends third) :
    first.Extends third :=
  ⟨hsecond.topics.trans hfirst.topics, hsecond.byID.trans hfirst.byID,
    hfirst.receivers.trans hsecond.receivers⟩

theorem Delivery.Extends.receivers_ne_nil {before after : Delivery}
    (hextends : before.Extends after) (hreached : before.receivers ≠ []) :
    after.receivers ≠ [] := by
  intro hnil
  have hprefix := hextends.receivers
  rw [hnil] at hprefix
  exact hreached (List.prefix_nil.mp hprefix)

theorem select_topics (hub : Hub) (candidates : List ConsumerEntry) :
    (hub.select candidates).2.topics = hub.topics := by
  cases candidates <;> rfl

theorem select_byID (hub : Hub) (candidates : List ConsumerEntry) :
    (hub.select candidates).2.byID = hub.byID := by
  cases candidates <;> rfl

theorem select_channels (hub : Hub) (candidates : List ConsumerEntry) :
    (hub.select candidates).2.channels = hub.channels := by
  cases candidates <;> rfl

theorem mem_of_select {hub : Hub} {candidates : List ConsumerEntry}
    {selected : ConsumerEntry}
    (hselect : (hub.select candidates).1 = some selected) :
    selected ∈ candidates := by
  cases candidates with
  | nil => cases hselect
  | cons first rest => exact List.mem_of_getElem? hselect

theorem extends_send (delivery : Delivery) (msg : QueueMessage)
    (deliveryTag : Bytes) (gid : String) (consumer : ConsumerEntry) :
    delivery.Extends (delivery.send msg deliveryTag gid consumer) := by
  rw [Delivery.send, Hub.trySend]
  split_ifs
  · exact ⟨rfl, rfl, List.prefix_append _ _⟩
  · exact .refl delivery

theorem receivers_send {delivery : Delivery} {msg : QueueMessage}
    {deliveryTag : Bytes} {gid : String} {consumer receiver : ConsumerEntry}
    (hreceiver : receiver ∈ (delivery.send msg deliveryTag gid consumer).receivers) :
    receiver ∈ delivery.receivers ∨ receiver = consumer := by
  rw [Delivery.send, Hub.trySend] at hreceiver
  split_ifs at hreceiver
  · simpa using hreceiver
  · exact .inl hreceiver

theorem extends_sendToGroup (sub : TopicSubscription) (msg : QueueMessage)
    (deliveryTag : Bytes) (delivery : Delivery) (gid : String) :
    delivery.Extends (delivery.sendToGroup sub msg deliveryTag gid) := by
  have htopics := select_topics delivery.hub (sub.group gid)
  have hbyID := select_byID delivery.hub (sub.group gid)
  rw [Delivery.sendToGroup]
  rcases hselect : delivery.hub.select (sub.group gid) with ⟨_ | selected, hub⟩
  · rw [hselect] at htopics hbyID
    exact ⟨htopics, hbyID, List.prefix_rfl⟩
  · rw [hselect] at htopics hbyID
    have hsend := extends_send { delivery with hub } msg deliveryTag gid selected
    exact ⟨hsend.topics.trans htopics, hsend.byID.trans hbyID, hsend.receivers⟩

theorem receivers_sendToGroup {sub : TopicSubscription} {msg : QueueMessage}
    {deliveryTag : Bytes} {delivery : Delivery} {gid : String}
    {receiver : ConsumerEntry}
    (hreceiver : receiver ∈
      (delivery.sendToGroup sub msg deliveryTag gid).receivers) :
    receiver ∈ delivery.receivers ∨ sub.Lists receiver := by
  rw [Delivery.sendToGroup] at hreceiver
  rcases hselect : delivery.hub.select (sub.group gid) with ⟨_ | selected, hub⟩
  · rw [hselect] at hreceiver
    exact .inl hreceiver
  · rw [hselect] at hreceiver
    rcases receivers_send hreceiver with hbefore | rfl
    · exact .inl hbefore
    · have hmem := mem_of_select (congrArg Prod.fst hselect)
      exact .inr (.inl ⟨gid, hmem⟩)

theorem extends_sendToUniversal (sub : TopicSubscription) (msg : QueueMessage)
    (deliveryTag : Bytes) (delivery : Delivery) (id : String) :
    delivery.Extends (delivery.sendToUniversal sub msg deliveryTag id) := by
  rw [Delivery.sendToUniversal]
  split
  · exact .refl delivery
  · exact extends_send delivery msg deliveryTag "" _

theorem receivers_sendToUniversal {sub : TopicSubscription} {msg : QueueMessage}
    {deliveryTag : Bytes} {delivery : Delivery} {id : String}
    {receiver : ConsumerEntry}
    (hreceiver : receiver ∈
      (delivery.sendToUniversal sub msg deliveryTag id).receivers) :
    receiver ∈ delivery.receivers ∨ sub.Lists receiver := by
  rw [Delivery.sendToUniversal] at hreceiver
  split at hreceiver
  · exact .inl hreceiver
  · rename_i consumer hconsumer
    rcases receivers_send hreceiver with hbefore | rfl
    · exact .inl hbefore
    · exact .inr (.inr ⟨id, hconsumer⟩)

/-- What every round of a dispatch loop preserves holds after the loop. -/
theorem foldl_delivery {round : Delivery → String → Delivery}
    {property : Delivery → Prop}
    (hround : ∀ delivery key, property delivery → property (round delivery key))
    (keys : List String) {delivery : Delivery} (hstart : property delivery) :
    property (keys.foldl round delivery) := by
  induction keys generalizing delivery with
  | nil => exact hstart
  | cons key keys ih => exact ih (hround delivery key hstart)

theorem extends_foldl {round : Delivery → String → Delivery}
    (hround : ∀ (delivery : Delivery) (key : String),
      delivery.Extends (round delivery key))
    (keys : List String) (delivery : Delivery) :
    delivery.Extends (keys.foldl round delivery) :=
  foldl_delivery (fun current key hcurrent => hcurrent.trans (hround current key))
    keys (.refl delivery)

theorem extends_dispatchToTopic (order : DispatchOrder) (hub : Hub) (topic : String)
    (msg : QueueMessage) (deliveryTag : Bytes) :
    Delivery.Extends ⟨hub, [], []⟩
      (hub.dispatchToTopic order topic msg deliveryTag) := by
  rw [Hub.dispatchToTopic]
  split
  · exact .refl _
  · rename_i sub _
    have hgroups := extends_foldl (extends_sendToGroup sub msg deliveryTag)
      (order.groups.arrange sub.groups.keys) ⟨hub, [], []⟩
    exact hgroups.trans (extends_foldl (extends_sendToUniversal sub msg deliveryTag)
      (order.universal.arrange sub.universal.keys) _)

/-- A message goes to consumers subscribed to the topic only. -/
theorem receivers_dispatchToTopic {order : DispatchOrder} {hub : Hub} {topic : String}
    {msg : QueueMessage} {deliveryTag : Bytes} {receiver : ConsumerEntry}
    (hreceiver : receiver ∈
      (hub.dispatchToTopic order topic msg deliveryTag).receivers) :
    ∃ sub, hub.topics[topic]? = some sub ∧ sub.Lists receiver := by
  rw [Hub.dispatchToTopic] at hreceiver
  split at hreceiver
  · exact absurd hreceiver List.not_mem_nil
  · rename_i sub hsub
    refine ⟨sub, hsub, ?_⟩
    have hstart : ∀ receiver ∈ (⟨hub, [], []⟩ : Delivery).receivers,
        sub.Lists receiver := by simp
    have hgroup : ∀ (delivery : Delivery) (gid : String),
        (∀ receiver ∈ delivery.receivers, sub.Lists receiver) →
        ∀ receiver ∈ (delivery.sendToGroup sub msg deliveryTag gid).receivers,
          sub.Lists receiver := by
      intro delivery gid hbefore receiver hmem
      exact (receivers_sendToGroup hmem).elim (hbefore receiver) id
    have huniversal : ∀ (delivery : Delivery) (id : String),
        (∀ receiver ∈ delivery.receivers, sub.Lists receiver) →
        ∀ receiver ∈ (delivery.sendToUniversal sub msg deliveryTag id).receivers,
          sub.Lists receiver := by
      intro delivery key hbefore receiver hmem
      exact (receivers_sendToUniversal hmem).elim (hbefore receiver) id
    exact foldl_delivery huniversal (order.universal.arrange sub.universal.keys)
      (foldl_delivery hgroup (order.groups.arrange sub.groups.keys) hstart)
      receiver hreceiver

end FutureQ.Consumers
