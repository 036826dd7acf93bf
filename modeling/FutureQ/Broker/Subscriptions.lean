import FutureQ.Broker.Consumers

/-!
# What the hub keeps true

Whatever the handlers and the dispatcher do with the hub, a consumer is listed
under the topic it registered on and under its own group or ID.  Two groups of a
topic therefore never share a round-robin counter, and a dispatch reaches some
consumer whenever one of those it would pick has room in its channel.
-/

namespace FutureQ.Consumers

open FutureQ.ByteOrder
open FutureQ.OrderedStore

/-- The hubs that the handlers and the dispatcher can produce. -/
inductive Hub.Reachable : Hub → Prop where
  | newHub : Reachable newHub
  | register {hub : Hub} (consumer : ConsumerEntry) :
      Reachable hub → Reachable (hub.register consumer)
  | unregister {hub : Hub} (id : String) :
      Reachable hub → Reachable (hub.unregister id)
  | dispatchToTopic {hub : Hub} (order : DispatchOrder) (topic : String)
      (msg : QueueMessage) (deliveryTag : Bytes) :
      Reachable hub →
        Reachable (hub.dispatchToTopic order topic msg deliveryTag).hub
  | removeInFlightForConsumer {hub : Hub} (consumerID : String) (key : Bytes) :
      Reachable hub → Reachable (hub.removeInFlightForConsumer consumerID key)
  | receive {hub : Hub} (id : String) : Reachable hub → Reachable (hub.receive id)

structure TopicSubscription.Filed (sub : TopicSubscription) (topic : String) :
    Prop where
  groups : ∀ gid, ∀ consumer ∈ sub.group gid,
    consumer.topic = topic ∧ consumer.group = gid ∧ gid ≠ ""
  universal : ∀ (id : String) (consumer : ConsumerEntry),
    sub.universal[id]? = some consumer →
      consumer.topic = topic ∧ consumer.id = id ∧ consumer.group = ""

def Hub.Filed (hub : Hub) : Prop :=
  ∀ (topic : String) (sub : TopicSubscription),
    hub.topics[topic]? = some sub → sub.Filed topic

theorem filed_newTopicSubscription (topic : String) :
    newTopicSubscription.Filed topic := by
  constructor
  · intro gid consumer hmem
    simp [newTopicSubscription, TopicSubscription.group] at hmem
  · intro id consumer hentry
    simp [newTopicSubscription] at hentry

theorem getElem?_insert_cases {V : Type} {table : Table V} {key other : String}
    {value found : V} (hfound : (table.insert key value)[other]? = some found) :
    (other = key ∧ found = value) ∨ table[other]? = some found := by
  by_cases hkey : key = other
  · subst hkey
    rw [Std.ExtTreeMap.getElem?_insert_self] at hfound
    exact .inl ⟨rfl, (Option.some.inj hfound).symm⟩
  · rw [getElem?_insert_ne hkey] at hfound
    exact .inr hfound

theorem getElem?_of_erase {V : Type} {table : Table V} {key other : String}
    {found : V} (hfound : (table.erase key)[other]? = some found) :
    table[other]? = some found := by
  rw [Std.ExtTreeMap.getElem?_erase] at hfound
  split_ifs at hfound
  exact hfound

/-! ## What `add` and `remove` do -/

/-- What a map of lists has under a key if it keeps no empty list. -/
def kept {α : Type} (values : List α) : Option (List α) :=
  if values.isEmpty then none else some values

theorem kept_append_singleton {α : Type} (values : List α) (value : α) :
    kept (values ++ [value]) = some (values ++ [value]) := by
  simp [kept]

theorem getD_kept {α : Type} (values : List α) : (kept values).getD [] = values := by
  cases values <;> rfl

theorem kept_eq_none_iff {α : Type} {values : List α} :
    kept values = none ↔ values = [] := by
  cases values <;> simp [kept]

theorem add_of_universal {consumer : ConsumerEntry} (hgroup : consumer.group = "")
    (sub : TopicSubscription) :
    sub.add consumer =
      { sub with universal := sub.universal.insert consumer.id consumer } := by
  rw [TopicSubscription.add, ConsumerEntry.isUniversal, if_pos (decide_eq_true hgroup)]

theorem add_of_group {consumer : ConsumerEntry} (hgroup : consumer.group ≠ "")
    (sub : TopicSubscription) :
    sub.add consumer =
      { sub with
        groups := sub.groups.insert consumer.group
          (sub.group consumer.group ++ [consumer]) } := by
  rw [TopicSubscription.add, ConsumerEntry.isUniversal, if_neg (by simpa using hgroup)]

theorem remove_of_universal {consumer : ConsumerEntry} (hgroup : consumer.group = "")
    (sub : TopicSubscription) :
    sub.remove consumer =
      { sub with universal := sub.universal.erase consumer.id } := by
  rw [TopicSubscription.remove, ConsumerEntry.isUniversal,
    if_pos (decide_eq_true hgroup)]

theorem remove_of_group {consumer : ConsumerEntry} (hgroup : consumer.group ≠ "")
    (sub : TopicSubscription) :
    sub.remove consumer =
      let group := (sub.group consumer.group).eraseP fun entry =>
        entry.id = consumer.id
      if group = [] then { sub with groups := sub.groups.erase consumer.group }
      else { sub with groups := sub.groups.insert consumer.group group } := by
  rw [TopicSubscription.remove, ConsumerEntry.isUniversal, if_neg (by simpa using hgroup)]

theorem groups_add (sub : TopicSubscription) (consumer : ConsumerEntry) (gid : String) :
    (sub.add consumer).groups[gid]? =
      if consumer.group = gid ∧ gid ≠ "" then some (sub.group gid ++ [consumer])
      else sub.groups[gid]? := by
  by_cases hgroup : consumer.group = ""
  · have hother : ¬ (consumer.group = gid ∧ gid ≠ "") := by
      rintro ⟨rfl, hne⟩
      exact hne hgroup
    rw [add_of_universal hgroup, if_neg hother]
  · rw [add_of_group hgroup]
    by_cases hgid : consumer.group = gid
    · subst hgid
      rw [if_pos ⟨rfl, hgroup⟩]
      exact Std.ExtTreeMap.getElem?_insert_self
    · rw [if_neg fun hsame => hgid hsame.1]
      exact getElem?_insert_ne hgid _

theorem universal_add (sub : TopicSubscription) (consumer : ConsumerEntry)
    (id : String) :
    (sub.add consumer).universal[id]? =
      if consumer.group = "" ∧ consumer.id = id then some consumer
      else sub.universal[id]? := by
  by_cases hgroup : consumer.group = ""
  · rw [add_of_universal hgroup]
    by_cases hid : consumer.id = id
    · subst hid
      rw [if_pos ⟨hgroup, rfl⟩]
      exact Std.ExtTreeMap.getElem?_insert_self
    · rw [if_neg fun hsame => hid hsame.2]
      exact getElem?_insert_ne hid _
  · rw [add_of_group hgroup, if_neg fun hsame => hgroup hsame.1]

theorem groups_remove (sub : TopicSubscription) (consumer : ConsumerEntry)
    (gid : String) :
    (sub.remove consumer).groups[gid]? =
      if consumer.group = gid ∧ gid ≠ "" then
        kept ((sub.group gid).eraseP fun entry => entry.id = consumer.id)
      else sub.groups[gid]? := by
  by_cases hgroup : consumer.group = ""
  · have hother : ¬ (consumer.group = gid ∧ gid ≠ "") := by
      rintro ⟨rfl, hne⟩
      exact hne hgroup
    rw [remove_of_universal hgroup, if_neg hother]
  · rw [remove_of_group hgroup]
    by_cases hgid : consumer.group = gid
    · subst hgid
      simp only [ne_eq, hgroup, not_false_eq_true, and_self, if_true, kept,
        List.isEmpty_iff]
      split_ifs
      · exact Std.ExtTreeMap.getElem?_erase_self
      · exact Std.ExtTreeMap.getElem?_insert_self
    · simp only [hgid, false_and, if_false]
      split_ifs
      · exact getElem?_erase_ne hgid
      · exact getElem?_insert_ne hgid _

theorem universal_remove (sub : TopicSubscription) (consumer : ConsumerEntry)
    (id : String) :
    (sub.remove consumer).universal[id]? =
      if consumer.group = "" ∧ consumer.id = id then none
      else sub.universal[id]? := by
  by_cases hgroup : consumer.group = ""
  · rw [remove_of_universal hgroup]
    by_cases hid : consumer.id = id
    · subst hid
      rw [if_pos ⟨hgroup, rfl⟩]
      exact Std.ExtTreeMap.getElem?_erase_self
    · rw [if_neg fun hsame => hid hsame.2]
      exact getElem?_erase_ne hid
  · simp only [remove_of_group hgroup, hgroup, false_and, if_false]
    split_ifs
    · rfl
    · rfl

theorem group_add (sub : TopicSubscription) (consumer : ConsumerEntry) (gid : String) :
    (sub.add consumer).group gid =
      if consumer.group = gid ∧ gid ≠ "" then sub.group gid ++ [consumer]
      else sub.group gid := by
  rw [TopicSubscription.group, groups_add]
  split_ifs
  · rfl
  · rfl

theorem group_remove (sub : TopicSubscription) (consumer : ConsumerEntry)
    (gid : String) :
    (sub.remove consumer).group gid =
      if consumer.group = gid ∧ gid ≠ "" then
        (sub.group gid).eraseP fun entry => entry.id = consumer.id
      else sub.group gid := by
  rw [TopicSubscription.group, groups_remove]
  split_ifs
  · exact getD_kept _
  · rfl

/-! ## Where consumers are listed -/

theorem TopicSubscription.Filed.add {sub : TopicSubscription} {topic : String}
    (hfiled : sub.Filed topic) {consumer : ConsumerEntry}
    (htopic : consumer.topic = topic) : (sub.add consumer).Filed topic := by
  constructor
  · intro gid entry hmem
    rw [group_add] at hmem
    split_ifs at hmem with hgid
    · rcases List.mem_append.mp hmem with hbefore | hnew
      · exact hfiled.groups gid entry hbefore
      · rw [List.mem_singleton.mp hnew]
        exact ⟨htopic, hgid⟩
    · exact hfiled.groups gid entry hmem
  · intro id entry hentry
    rw [universal_add] at hentry
    split_ifs at hentry with hplace
    · cases hentry
      exact ⟨htopic, hplace.2, hplace.1⟩
    · exact hfiled.universal id entry hentry

theorem TopicSubscription.Filed.remove {sub : TopicSubscription} {topic : String}
    (hfiled : sub.Filed topic) (consumer : ConsumerEntry) :
    (sub.remove consumer).Filed topic := by
  constructor
  · intro gid entry hmem
    rw [group_remove] at hmem
    split_ifs at hmem
    · exact hfiled.groups gid entry (List.mem_of_mem_eraseP hmem)
    · exact hfiled.groups gid entry hmem
  · intro id entry hentry
    rw [universal_remove] at hentry
    split_ifs at hentry
    exact hfiled.universal id entry hentry

theorem Hub.Filed.register {hub : Hub} (hfiled : hub.Filed)
    (consumer : ConsumerEntry) : (hub.register consumer).Filed := by
  intro topic sub hsub
  rcases getElem?_insert_cases hsub with ⟨rfl, rfl⟩ | hbefore
  · apply TopicSubscription.Filed.add _ rfl
    rw [Hub.subscription]
    cases hcurrent : hub.topics[consumer.topic]? with
    | none => exact filed_newTopicSubscription _
    | some current => exact hfiled _ current hcurrent
  · exact hfiled topic sub hbefore

theorem Hub.Filed.unregister {hub : Hub} (hfiled : hub.Filed) (id : String) :
    (hub.unregister id).Filed := by
  intro topic sub hsub
  rw [Hub.unregister] at hsub
  cases hentry : hub.byID[id]? with
  | none =>
      rw [hentry] at hsub
      exact hfiled topic sub hsub
  | some entry =>
      rw [hentry] at hsub
      cases hcurrent : hub.topics[entry.topic]? with
      | none =>
          simp only [hcurrent] at hsub
          exact hfiled topic sub hsub
      | some current =>
          simp only [hcurrent] at hsub
          split_ifs at hsub
          · exact hfiled topic sub (getElem?_of_erase hsub)
          · rcases getElem?_insert_cases hsub with ⟨rfl, rfl⟩ | hbefore
            · exact (hfiled _ current hcurrent).remove entry
            · exact hfiled topic sub hbefore

/-- Every consumer of a reachable hub is listed where it registered. -/
theorem Hub.Reachable.filed {hub : Hub} (hreachable : hub.Reachable) :
    hub.Filed := by
  induction hreachable with
  | newHub =>
      intro topic sub hsub
      simp [Consumers.newHub] at hsub
  | register consumer _ ih => exact ih.register consumer
  | unregister id _ ih => exact ih.unregister id
  | @dispatchToTopic hub order topic msg deliveryTag _ ih =>
      have hkept := (extends_dispatchToTopic order hub topic msg deliveryTag).topics
      rw [Hub.Filed, hkept]
      exact ih
  | @removeInFlightForConsumer hub consumerID key _ ih =>
      rw [Hub.removeInFlightForConsumer]
      split_ifs
      · exact ih
      · exact ih
  | receive id _ ih => exact ih

/-! ## Dispatches that reach somebody -/

def Hub.hasRoom (hub : Hub) (consumer : ConsumerEntry) : Prop :=
  (hub.waiting consumer.id).length < channelCapacity

/-- Some consumer that a dispatch would pick has room in its channel. -/
def Hub.Ready (hub : Hub) (topic : String) : Prop :=
  ∃ sub, hub.topics[topic]? = some sub ∧
    ((∃ gid consumer, (hub.select (sub.group gid)).1 = some consumer ∧
        hub.hasRoom consumer) ∨
      ∃ (id : String) (consumer : ConsumerEntry),
        sub.universal[id]? = some consumer ∧ hub.hasRoom consumer)

instance (hub : Hub) (consumer : ConsumerEntry) : Decidable (hub.hasRoom consumer) :=
  inferInstanceAs (Decidable (_ < _))

theorem ready_iff {hub : Hub} {topic : String} :
    hub.Ready topic ↔ ∃ sub ∈ hub.topics[topic]?,
      (∃ gid ∈ sub.groups.keys, ∃ consumer ∈ (hub.select (sub.group gid)).1,
        hub.hasRoom consumer) ∨
      ∃ id ∈ sub.universal.keys, ∃ consumer ∈ sub.universal[id]?,
        hub.hasRoom consumer := by
  constructor
  · rintro ⟨sub, hsub, ⟨gid, consumer, hselected, hroom⟩ | ⟨id, consumer, hlisted, hroom⟩⟩
    · refine ⟨sub, hsub, .inl ⟨gid, ?_, consumer, hselected, hroom⟩⟩
      cases hgroup : sub.groups[gid]? with
      | none =>
          rw [TopicSubscription.group, hgroup] at hselected
          cases hselected
      | some members =>
          rw [Std.ExtTreeMap.mem_keys, Std.ExtTreeMap.mem_iff_isSome_getElem?, hgroup]
          rfl
    · refine ⟨sub, hsub, .inr ⟨id, ?_, consumer, hlisted, hroom⟩⟩
      rw [Std.ExtTreeMap.mem_keys, Std.ExtTreeMap.mem_iff_isSome_getElem?, hlisted]
      rfl
  · rintro ⟨sub, hsub, ⟨gid, -, consumer, hselected, hroom⟩ | ⟨id, -, consumer, hlisted, hroom⟩⟩
    · exact ⟨sub, hsub, .inl ⟨gid, consumer, hselected, hroom⟩⟩
    · exact ⟨sub, hsub, .inr ⟨id, consumer, hlisted, hroom⟩⟩

instance (hub : Hub) (topic : String) : Decidable (hub.Ready topic) :=
  decidable_of_iff _ ready_iff.symm

/-- As long as nobody got the message the channels are those of the start. -/
def Delivery.Quiet (hub : Hub) (delivery : Delivery) : Prop :=
  delivery.receivers = [] → delivery.hub.channels = hub.channels

theorem receivers_send_ne_nil {delivery : Delivery} {msg : QueueMessage}
    {deliveryTag : Bytes} {gid : String} {consumer : ConsumerEntry}
    (hroom : delivery.hub.hasRoom consumer) :
    (delivery.send msg deliveryTag gid consumer).receivers ≠ [] := by
  have hlength : (delivery.hub.waiting consumer.id).length < channelCapacity :=
    hroom
  rw [Delivery.send, Hub.trySend, if_pos hlength]
  simp

theorem quiet_send {hub : Hub} {delivery : Delivery} (hquiet : delivery.Quiet hub)
    (msg : QueueMessage) (deliveryTag : Bytes) (gid : String)
    (consumer : ConsumerEntry) :
    (delivery.send msg deliveryTag gid consumer).Quiet hub := by
  rw [Delivery.send, Hub.trySend]
  split_ifs
  · intro hnil
    simp at hnil
  · exact hquiet

theorem quiet_sendToGroup {hub : Hub} {delivery : Delivery}
    (hquiet : delivery.Quiet hub) (sub : TopicSubscription) (msg : QueueMessage)
    (deliveryTag : Bytes) (gid : String) :
    (delivery.sendToGroup sub msg deliveryTag gid).Quiet hub := by
  have hchannels := select_channels delivery.hub (sub.group gid)
  rw [Delivery.sendToGroup]
  rcases hselect : delivery.hub.select (sub.group gid) with ⟨_ | selected, after⟩
  · rw [hselect] at hchannels
    exact fun hnil => hchannels.trans (hquiet hnil)
  · rw [hselect] at hchannels
    apply quiet_send
    exact fun hnil => hchannels.trans (hquiet hnil)

theorem quiet_sendToUniversal {hub : Hub} {delivery : Delivery}
    (hquiet : delivery.Quiet hub) (sub : TopicSubscription) (msg : QueueMessage)
    (deliveryTag : Bytes) (id : String) :
    (delivery.sendToUniversal sub msg deliveryTag id).Quiet hub := by
  rw [Delivery.sendToUniversal]
  split
  · exact hquiet
  · exact quiet_send hquiet msg deliveryTag "" _

/-- A round that would succeed in a quiet dispatch makes the whole loop reach
somebody. -/
theorem receivers_foldl_ne_nil (hub : Hub) (property : Delivery → Prop)
    {round : Delivery → String → Delivery} {key : String} {keys : List String}
    {delivery : Delivery} (hkey : key ∈ keys) (hnodup : keys.Nodup)
    (hextends : ∀ (delivery : Delivery) (key : String),
      delivery.Extends (round delivery key))
    (hstart : delivery.Quiet hub ∧ property delivery)
    (hround : ∀ delivery other, other ≠ key →
      delivery.Quiet hub ∧ property delivery →
      (round delivery other).Quiet hub ∧ property (round delivery other))
    (hreach : ∀ delivery, delivery.Quiet hub ∧ property delivery →
      (round delivery key).receivers ≠ []) :
    (keys.foldl round delivery).receivers ≠ [] := by
  obtain ⟨before, after, rfl⟩ := List.append_of_mem hkey
  have hbefore : ∀ other ∈ before, other ≠ key := by
    rintro other hother rfl
    exact (List.nodup_append.mp hnodup).2.2 other hother other
      List.mem_cons_self rfl
  have hturn : ∀ others : List String, (∀ other ∈ others, other ≠ key) →
      ∀ delivery, delivery.Quiet hub ∧ property delivery →
        (others.foldl round delivery).Quiet hub ∧
          property (others.foldl round delivery) := by
    intro others
    induction others with
    | nil => exact fun _ delivery hdelivery => hdelivery
    | cons other others ih =>
        intro hothers delivery hdelivery
        obtain ⟨hother, hrest⟩ := List.forall_mem_cons.mp hothers
        exact ih hrest _ (hround delivery other hother hdelivery)
  have hreached := hreach _ (hturn before hbefore delivery hstart)
  rw [List.foldl_append, List.foldl_cons]
  exact (extends_foldl hextends after _).receivers_ne_nil hreached

theorem nodup_arrange_keys {V : Type} (order : MapOrder) (table : Table V) :
    (order.arrange table.keys).Nodup := by
  rw [(order.perm _).nodup_iff]
  refine List.Pairwise.imp ?_ table.distinct_keys
  rintro key other hne rfl
  exact hne Std.ReflCmp.compare_self

theorem mem_arrange_keys {V : Type} (order : MapOrder) {table : Table V}
    {key : String} {value : V} (hvalue : table[key]? = some value) :
    key ∈ order.arrange table.keys := by
  rw [(order.perm _).mem_iff, Std.ExtTreeMap.mem_keys,
    Std.ExtTreeMap.mem_iff_isSome_getElem?, hvalue]
  rfl

/-- The counters of two groups of a topic are kept apart. -/
theorem groupKey_ne {sub : TopicSubscription} {topic gid other : String}
    (hfiled : sub.Filed topic) (hne : other ≠ gid) {first : ConsumerEntry}
    (hfirst : first ∈ sub.group other) : first.groupKey ≠ topic ++ "|" ++ gid := by
  obtain ⟨htopic, hgroup, hnonempty⟩ := hfiled.groups other first hfirst
  rw [ConsumerEntry.groupKey, if_neg (by rw [hgroup]; exact hnonempty), htopic,
    hgroup]
  intro heq
  exact hne (by simpa using heq)

theorem next_sendToGroup {sub : TopicSubscription} {topic gid other : String}
    (hfiled : sub.Filed topic) (hne : other ≠ gid) (delivery : Delivery)
    (msg : QueueMessage) (deliveryTag : Bytes) :
    (delivery.sendToGroup sub msg deliveryTag other).hub.next[
        topic ++ "|" ++ gid]? =
      delivery.hub.next[topic ++ "|" ++ gid]? := by
  have hselect : (delivery.hub.select (sub.group other)).2.next[
      topic ++ "|" ++ gid]? = delivery.hub.next[topic ++ "|" ++ gid]? := by
    cases hcandidates : sub.group other with
    | nil => rfl
    | cons first rest =>
        have hfirst : first ∈ sub.group other := by
          rw [hcandidates]
          exact List.mem_cons_self
        exact getElem?_insert_ne (groupKey_ne hfiled hne hfirst) _
  rw [Delivery.sendToGroup]
  rcases hpicked : delivery.hub.select (sub.group other) with ⟨_ | selected, after⟩
  · rw [hpicked] at hselect
    exact hselect
  · rw [hpicked] at hselect
    simp only [Delivery.send, Hub.trySend]
    split_ifs
    · exact hselect
    · exact hselect

/-- What a group picks depends on its own counter only. -/
theorem select_congr {sub : TopicSubscription} {topic gid : String}
    (hfiled : sub.Filed topic) {left right : Hub}
    (hnext : left.next[topic ++ "|" ++ gid]? = right.next[topic ++ "|" ++ gid]?) :
    (left.select (sub.group gid)).1 = (right.select (sub.group gid)).1 := by
  cases hcandidates : sub.group gid with
  | nil => rfl
  | cons first rest =>
      have hfirst : first ∈ sub.group gid := by
        rw [hcandidates]
        exact List.mem_cons_self
      obtain ⟨htopic, hgroup, hnonempty⟩ := hfiled.groups gid first hfirst
      have hkey : first.groupKey = topic ++ "|" ++ gid := by
        rw [ConsumerEntry.groupKey, if_neg (by rw [hgroup]; exact hnonempty),
          htopic, hgroup]
      simp only [Hub.select, hkey, hnext]

theorem receivers_sendToGroup_ne_nil {hub : Hub} {sub : TopicSubscription}
    {topic gid : String} {consumer : ConsumerEntry} {delivery : Delivery}
    (hfiled : sub.Filed topic) (hquiet : delivery.Quiet hub)
    (hnext : delivery.hub.next[topic ++ "|" ++ gid]? =
      hub.next[topic ++ "|" ++ gid]?)
    (hselected : (hub.select (sub.group gid)).1 = some consumer)
    (hroom : hub.hasRoom consumer) (msg : QueueMessage) (deliveryTag : Bytes) :
    (delivery.sendToGroup sub msg deliveryTag gid).receivers ≠ [] := by
  by_cases hnil : delivery.receivers = []
  · have hchannels := select_channels delivery.hub (sub.group gid)
    rw [← select_congr hfiled hnext] at hselected
    rw [Delivery.sendToGroup]
    rcases hpicked : delivery.hub.select (sub.group gid) with ⟨_ | picked, after⟩
    · rw [hpicked] at hselected
      cases hselected
    · rw [hpicked] at hselected hchannels
      cases hselected
      apply receivers_send_ne_nil
      rw [Hub.hasRoom, Hub.waiting] at hroom ⊢
      rw [hchannels, hquiet hnil]
      exact hroom
  · exact (extends_sendToGroup sub msg deliveryTag delivery gid).receivers_ne_nil hnil

theorem receivers_sendToUniversal_ne_nil {hub : Hub} {sub : TopicSubscription}
    {id : String} {consumer : ConsumerEntry} {delivery : Delivery}
    (hquiet : delivery.Quiet hub) (hconsumer : sub.universal[id]? = some consumer)
    (hroom : hub.hasRoom consumer) (msg : QueueMessage) (deliveryTag : Bytes) :
    (delivery.sendToUniversal sub msg deliveryTag id).receivers ≠ [] := by
  by_cases hnil : delivery.receivers = []
  · rw [Delivery.sendToUniversal, hconsumer]
    apply receivers_send_ne_nil
    rw [Hub.hasRoom, Hub.waiting] at hroom ⊢
    rw [hquiet hnil]
    exact hroom
  · exact (extends_sendToUniversal sub msg deliveryTag delivery id).receivers_ne_nil hnil

/-- A dispatch reaches somebody when one consumer it would pick has room. -/
theorem receivers_dispatchToTopic_ne_nil {hub : Hub} {topic : String}
    (hfiled : hub.Filed) (hready : hub.Ready topic) (order : DispatchOrder)
    (msg : QueueMessage) (deliveryTag : Bytes) :
    (hub.dispatchToTopic order topic msg deliveryTag).receivers ≠ [] := by
  obtain ⟨sub, hsub, hpick⟩ := hready
  have hsubFiled := hfiled topic sub hsub
  have hquiet : Delivery.Quiet hub ⟨hub, [], []⟩ := fun _ => rfl
  rw [Hub.dispatchToTopic, hsub]
  rcases hpick with ⟨gid, consumer, hselected, hroom⟩ | ⟨id, consumer, hconsumer, hroom⟩
  · have hmember : gid ∈ order.groups.arrange sub.groups.keys := by
      cases hgroup : sub.groups[gid]? with
      | none =>
          rw [TopicSubscription.group, hgroup] at hselected
          cases hselected
      | some members => exact mem_arrange_keys order.groups hgroup
    have hgroups : ((order.groups.arrange sub.groups.keys).foldl
        (Delivery.sendToGroup sub msg deliveryTag) ⟨hub, [], []⟩).receivers ≠ [] := by
      apply receivers_foldl_ne_nil hub
        (fun delivery => delivery.hub.next[topic ++ "|" ++ gid]? =
          hub.next[topic ++ "|" ++ gid]?)
        hmember (nodup_arrange_keys order.groups sub.groups)
        (extends_sendToGroup sub msg deliveryTag)
      · exact ⟨hquiet, rfl⟩
      · rintro delivery other hne ⟨hdelivery, hnext⟩
        exact ⟨quiet_sendToGroup hdelivery sub msg deliveryTag other,
          (next_sendToGroup hsubFiled hne delivery msg deliveryTag).trans hnext⟩
      · rintro delivery ⟨hdelivery, hnext⟩
        exact receivers_sendToGroup_ne_nil hsubFiled hdelivery hnext hselected hroom
          msg deliveryTag
    exact (extends_foldl (extends_sendToUniversal sub msg deliveryTag)
      (order.universal.arrange sub.universal.keys) _).receivers_ne_nil hgroups
  · have hafter := foldl_delivery
      (fun delivery gid (hdelivery : Delivery.Quiet hub delivery) =>
        quiet_sendToGroup hdelivery sub msg deliveryTag gid)
      (order.groups.arrange sub.groups.keys) hquiet
    apply receivers_foldl_ne_nil hub (fun _ => True)
      (mem_arrange_keys order.universal hconsumer)
      (nodup_arrange_keys order.universal sub.universal)
      (extends_sendToUniversal sub msg deliveryTag)
    · exact ⟨hafter, trivial⟩
    · rintro delivery other hne ⟨hdelivery, _⟩
      exact ⟨quiet_sendToUniversal hdelivery sub msg deliveryTag other, trivial⟩
    · rintro delivery ⟨hdelivery, _⟩
      exact receivers_sendToUniversal_ne_nil hdelivery hconsumer hroom msg deliveryTag

end FutureQ.Consumers
