import FutureQ.Broker.Registry

/-!
# Fan-out

One `DispatchToTopic` on any hub that stands for a list of registered consumers,
with any channels and counters.  Whom it reaches is computed here from the hub
before the call: of every group the consumer that the strategy picks, if that one
has room, and every universal consumer with room.  A group is therefore passed over
when the strategy picks a full consumer, even if another one has room.
-/

namespace FutureQ.Fanout

open FutureQ.ByteOrder
open FutureQ.OrderedStore
open FutureQ.Consumers
open FutureQ.Registry

/-- Some consumer of the group has room. -/
def Servable (hub : Hub) (registered : List ConsumerEntry) (topic gid : String) : Prop :=
  ∃ consumer ∈ members registered topic gid, hub.hasRoom consumer

/-- The message reached these consumers: they are in the result of the call, and
their channels and in-flight lists are the ones that grew. -/
structure Delivered (hub : Hub) (msg : QueueMessage) (deliveryTag : Bytes)
    (reached : List ConsumerEntry) (delivery : Delivery) : Prop where
  receivers : delivery.receivers = reached
  sentTo : delivery.sentTo = reached.map ConsumerEntry.group
  waiting : ∀ id, delivery.hub.waiting id = hub.waiting id ++
    if id ∈ reached.map ConsumerEntry.id then [msg] else []
  held : ∀ id, delivery.hub.held id = hub.held id ++
    if id ∈ reached.map ConsumerEntry.id then [deliveryTag] else []

/-- One consumer of every servable group and every universal consumer with room
receive the message, and nobody else does. -/
structure Exact (hub : Hub) (registered : List ConsumerEntry) (topic : String)
    (msg : QueueMessage) (deliveryTag : Bytes) (delivery : Delivery) : Prop where
  delivered : Delivered hub msg deliveryTag delivery.receivers delivery
  room : ∀ receiver ∈ delivery.receivers,
    receiver ∈ registered ∧ receiver.topic = topic ∧ hub.hasRoom receiver
  groups : ∀ gid, Servable hub registered topic gid →
    (delivery.receivers.filter fun receiver => receiver.group = gid).length = 1
  universal : ∀ consumer ∈ registered, consumer.topic = topic → consumer.group = "" →
    hub.hasRoom consumer → delivery.receivers.count consumer = 1

/-! ## One send -/

section Rounds

variable {hub : Hub} {msg : QueueMessage} {deliveryTag : Bytes}
variable {reached : List ConsumerEntry} {delivery : Delivery}

theorem waiting_insert (hub : Hub) (id other : String) (messages : List QueueMessage) :
    { hub with channels := hub.channels.insert id messages }.waiting other =
      if id = other then messages else hub.waiting other := by
  rw [Hub.waiting]
  by_cases hid : id = other
  · subst hid
    rw [if_pos rfl, Std.ExtTreeMap.getElem?_insert_self, Option.getD_some]
  · rw [if_neg hid, getElem?_insert_ne hid, Hub.waiting]

theorem held_insert (hub : Hub) (id other : String) (tags : List Bytes) :
    { hub with inFlightByConsumer := hub.inFlightByConsumer.insert id tags }.held other =
      if id = other then tags else hub.held other := by
  rw [Hub.held]
  by_cases hid : id = other
  · subst hid
    rw [if_pos rfl, Std.ExtTreeMap.getElem?_insert_self, Option.getD_some]
  · rw [if_neg hid, getElem?_insert_ne hid, Hub.held]

/-- What a new receiver adds to what its ID had. -/
theorem append_new_receiver {α : Type} {consumer : ConsumerEntry} {value : α}
    (before : List α)
    (id : String) (values : List α) (hvalues : consumer.id = id → values = before) :
    (if consumer.id = id then values ++ [value]
      else before ++ if id ∈ reached.map ConsumerEntry.id then [value] else []) =
      before ++ if id ∈ (reached ++ [consumer]).map ConsumerEntry.id then [value]
        else [] := by
  rw [List.map_append, List.map_singleton]
  by_cases hid : consumer.id = id
  · rw [if_pos hid, if_pos (by simp [hid]), hvalues hid]
  · rw [if_neg hid]
    simp [Ne.symm hid]

theorem Delivered.send (hdelivered : Delivered hub msg deliveryTag reached delivery)
    {consumer : ConsumerEntry}
    (hfresh : consumer.id ∉ reached.map ConsumerEntry.id) :
    Delivered hub msg deliveryTag
      (reached ++ if hub.hasRoom consumer then [consumer] else [])
      (delivery.send msg deliveryTag consumer.group consumer) := by
  have hwaiting : delivery.hub.waiting consumer.id = hub.waiting consumer.id := by
    rw [hdelivered.waiting, if_neg hfresh, List.append_nil]
  have hheld : delivery.hub.held consumer.id = hub.held consumer.id := by
    rw [hdelivered.held, if_neg hfresh, List.append_nil]
  rw [Delivery.send, Hub.trySend, hwaiting, hheld]
  by_cases hroom : hub.hasRoom consumer
  · have hlength : (hub.waiting consumer.id).length < channelCapacity := hroom
    rw [if_pos hroom, if_pos hlength]
    constructor
    · exact congrArg (· ++ [consumer]) hdelivered.receivers
    · rw [List.map_append, ← hdelivered.sentTo]
      rfl
    · intro id
      refine (waiting_insert delivery.hub consumer.id id _).trans ?_
      rw [hdelivered.waiting]
      exact append_new_receiver _ id _ fun hid => hid ▸ rfl
    · intro id
      refine (held_insert delivery.hub consumer.id id _).trans ?_
      rw [hdelivered.held]
      exact append_new_receiver _ id _ fun hid => hid ▸ rfl
  · have hlength : ¬ (hub.waiting consumer.id).length < channelCapacity := hroom
    rw [if_neg hroom, if_neg hlength, List.append_nil]
    exact hdelivered

theorem Delivered.select (hdelivered : Delivered hub msg deliveryTag reached delivery)
    (candidates : List ConsumerEntry) :
    Delivered hub msg deliveryTag reached
      { delivery with hub := (delivery.hub.select candidates).2 } := by
  cases candidates with
  | nil => exact hdelivered
  | cons first rest =>
      exact ⟨hdelivered.receivers, hdelivered.sentTo, hdelivered.waiting,
        hdelivered.held⟩

/-- Whom the hub before the dispatch would serve in a group. -/
def served (hub : Hub) (sub : TopicSubscription) (gid : String) :
    Option ConsumerEntry :=
  (hub.select (sub.group gid)).1.filter fun consumer => hub.hasRoom consumer

/-- Which universal consumer with this ID has room before the dispatch. -/
def openUniversal (hub : Hub) (sub : TopicSubscription) (id : String) :
    Option ConsumerEntry :=
  sub.universal[id]?.filter fun consumer => hub.hasRoom consumer

theorem toList_filter (found : Option ConsumerEntry) (test : ConsumerEntry → Bool) :
    (found.filter test).toList = found.toList.filter test := by
  cases found with
  | none => rfl
  | some consumer => cases htest : test consumer <;> simp [htest]

theorem Delivered.sendToGroup
    (hdelivered : Delivered hub msg deliveryTag reached delivery)
    {sub : TopicSubscription} {topic gid : String} (hfiled : sub.Filed topic)
    (hnext : delivery.hub.next[topic ++ "|" ++ gid]? =
      hub.next[topic ++ "|" ++ gid]?)
    (hfresh : ∀ consumer ∈ sub.group gid,
      consumer.id ∉ reached.map ConsumerEntry.id) :
    Delivered hub msg deliveryTag (reached ++ (served hub sub gid).toList)
      (delivery.sendToGroup sub msg deliveryTag gid) := by
  have hselected := hdelivered.select (sub.group gid)
  rw [served, ← select_congr hfiled hnext, Delivery.sendToGroup]
  rcases hpicked : delivery.hub.select (sub.group gid) with ⟨_ | selected, after⟩
  · rw [hpicked] at hselected
    simpa using hselected
  · rw [hpicked] at hselected
    have hmem := mem_of_select (congrArg Prod.fst hpicked)
    have hgroup := (hfiled.groups gid selected hmem).2.1
    have hsent := hselected.send (hfresh selected hmem)
    rw [hgroup] at hsent
    simpa [toList_filter, List.filter_cons] using hsent

theorem Delivered.sendToUniversal
    (hdelivered : Delivered hub msg deliveryTag reached delivery)
    {sub : TopicSubscription} {topic id : String} (hfiled : sub.Filed topic)
    (hfresh : ∀ consumer ∈ sub.universal[id]?,
      consumer.id ∉ reached.map ConsumerEntry.id) :
    Delivered hub msg deliveryTag (reached ++ (openUniversal hub sub id).toList)
      (delivery.sendToUniversal sub msg deliveryTag id) := by
  rw [openUniversal, Delivery.sendToUniversal]
  cases hentry : sub.universal[id]? with
  | none => simpa using hdelivered
  | some consumer =>
      have hgroup := (hfiled.universal id consumer hentry).2.2
      have hsent := hdelivered.send (hfresh consumer hentry)
      rw [hgroup] at hsent
      simpa [toList_filter, List.filter_cons] using hsent

end Rounds

/-! ## The two loops -/

theorem mem_of_served {hub : Hub} {sub : TopicSubscription} {gid : String}
    {consumer : ConsumerEntry} (hserved : served hub sub gid = some consumer) :
    consumer ∈ sub.group gid ∧ hub.hasRoom consumer := by
  obtain ⟨hselected, hroom⟩ := Option.filter_eq_some_iff.mp hserved
  exact ⟨mem_of_select hselected, of_decide_eq_true hroom⟩

theorem openUniversal_eq_some {hub : Hub} {sub : TopicSubscription} {id : String}
    {consumer : ConsumerEntry} :
    openUniversal hub sub id = some consumer ↔
      sub.universal[id]? = some consumer ∧ hub.hasRoom consumer := by
  rw [openUniversal, Option.filter_eq_some_iff, decide_eq_true_iff]

/-- A loop over the keys of a map reaches the outcome of every round, if a round
does not spoil the other keys. -/
theorem delivered_foldl {hub : Hub} {msg : QueueMessage} {deliveryTag : Bytes}
    {round : Delivery → String → Delivery} (outcome : String → Option ConsumerEntry)
    (Ready : List ConsumerEntry → Delivery → String → Prop)
    (hround : ∀ reached delivery key, Delivered hub msg deliveryTag reached delivery →
      Ready reached delivery key →
      Delivered hub msg deliveryTag (reached ++ (outcome key).toList)
        (round delivery key))
    (hkeeps : ∀ reached delivery key other, key ≠ other →
      Ready reached delivery other →
      Ready (reached ++ (outcome key).toList) (round delivery key) other)
    {keys : List String} (hnodup : keys.Nodup) {reached : List ConsumerEntry}
    {delivery : Delivery} (hdelivered : Delivered hub msg deliveryTag reached delivery)
    (hready : ∀ key ∈ keys, Ready reached delivery key) :
    Delivered hub msg deliveryTag (reached ++ keys.filterMap outcome)
      (keys.foldl round delivery) := by
  induction keys generalizing reached delivery with
  | nil => simpa using hdelivered
  | cons key keys ih =>
      obtain ⟨hfresh, hnodup⟩ := List.nodup_cons.mp hnodup
      obtain ⟨hfirst, hrest⟩ := List.forall_mem_cons.mp hready
      have hafter := ih hnodup (hround reached delivery key hdelivered hfirst)
        fun other hother => hkeeps reached delivery key other
          (fun heq => hfresh (heq ▸ hother)) (hrest other hother)
      cases houtcome : outcome key with
      | none => simpa [houtcome] using hafter
      | some consumer => simpa [houtcome] using hafter

/-- Whom one dispatch reaches. -/
def chosen (order : DispatchOrder) (hub : Hub) (sub : TopicSubscription) :
    List ConsumerEntry :=
  (order.groups.arrange sub.groups.keys).filterMap (served hub sub) ++
    (order.universal.arrange sub.universal.keys).filterMap (openUniversal hub sub)

section Dispatch

variable {hub : Hub} {registered : List ConsumerEntry} {topic : String}
variable {sub : TopicSubscription}

theorem id_ne_of_group_ne (hnodup : (registered.map ConsumerEntry.id).Nodup)
    {first second : ConsumerEntry} (hfirst : first ∈ registered)
    (hsecond : second ∈ registered) (hgroup : first.group ≠ second.group) :
    first.id ≠ second.id := by
  intro hid
  exact hgroup (congrArg ConsumerEntry.group (eq_of_id hnodup hfirst hsecond hid))

/-- Nobody who competes for a group has the message yet, and the counter of the
group is that of the start. -/
def GroupReady (hub : Hub) (sub : TopicSubscription) (topic : String)
    (reached : List ConsumerEntry) (delivery : Delivery) (gid : String) : Prop :=
  delivery.hub.next[topic ++ "|" ++ gid]? = hub.next[topic ++ "|" ++ gid]? ∧
    ∀ consumer ∈ sub.group gid, consumer.id ∉ reached.map ConsumerEntry.id

def UniversalReady (sub : TopicSubscription) (reached : List ConsumerEntry)
    (_ : Delivery) (id : String) : Prop :=
  ∀ consumer ∈ sub.universal[id]?, consumer.id ∉ reached.map ConsumerEntry.id

theorem not_mem_reached {reached : List ConsumerEntry} {found : Option ConsumerEntry}
    {id : String} (hfresh : id ∉ reached.map ConsumerEntry.id)
    (hfound : ∀ consumer ∈ found, consumer.id ≠ id) :
    id ∉ (reached ++ found.toList).map ConsumerEntry.id := by
  rw [List.map_append, List.mem_append]
  rintro (hreached | hnew)
  · exact hfresh hreached
  · obtain ⟨consumer, hconsumer, hid⟩ := List.mem_map.mp hnew
    exact hfound consumer (Option.mem_toList.mp hconsumer) hid

theorem delivered_groups (hub : Hub) (hnodup : (registered.map ConsumerEntry.id).Nodup)
    (hholds : Holds sub registered topic) (order : MapOrder) (msg : QueueMessage)
    (deliveryTag : Bytes) :
    Delivered hub msg deliveryTag
      ((order.arrange sub.groups.keys).filterMap (served hub sub))
      ((order.arrange sub.groups.keys).foldl
        (Delivery.sendToGroup sub msg deliveryTag) ⟨hub, [], []⟩) := by
  have hfiled := hholds.filed
  have hstart : Delivered hub msg deliveryTag [] ⟨hub, [], []⟩ := by
    constructor <;> simp
  apply delivered_foldl (served hub sub) (GroupReady hub sub topic) ?_ ?_
    (nodup_arrange_keys order sub.groups) hstart
  · intro gid _
    exact ⟨rfl, by simp⟩
  · intro reached delivery gid hdelivered hready
    exact hdelivered.sendToGroup hfiled hready.1 hready.2
  · rintro reached delivery gid other hne ⟨hnext, hfresh⟩
    refine ⟨(next_sendToGroup hfiled hne delivery msg deliveryTag).trans hnext, ?_⟩
    intro consumer hconsumer
    apply not_mem_reached (hfresh consumer hconsumer)
    intro earlier hearlier
    have hmember := (mem_of_served hearlier).1
    rw [hholds.group, mem_members_iff] at hmember hconsumer
    apply id_ne_of_group_ne hnodup hmember.1 hconsumer.1
    rw [hmember.2.2.1, hconsumer.2.2.1]
    exact hne

/-- A dispatch reaches the chosen consumers and nobody else. -/
theorem delivered_dispatchToTopic (hrepresents : Represents hub registered)
    (order : DispatchOrder) (topic : String) (msg : QueueMessage)
    (deliveryTag : Bytes) :
    Delivered hub msg deliveryTag (chosen order hub (hub.subscription topic))
      (hub.dispatchToTopic order topic msg deliveryTag) := by
  have hholds := hrepresents.subscription topic
  rw [Hub.dispatchToTopic]
  cases hsub : hub.topics[topic]? with
  | none =>
      have hnone : chosen order hub (hub.subscription topic) = [] := by
        rw [Hub.subscription, hsub, chosen]
        simp [newTopicSubscription, served, TopicSubscription.group, Hub.select,
          openUniversal]
      rw [hnone]
      constructor <;> simp
  | some sub =>
      rw [Hub.subscription, hsub, Option.getD_some] at hholds ⊢
      have hgroups := delivered_groups hub hrepresents.nodup hholds order.groups msg
        deliveryTag
      apply delivered_foldl (openUniversal hub sub) (UniversalReady sub) ?_ ?_
        (nodup_arrange_keys order.universal sub.universal) hgroups
      · intro id _ consumer hconsumer hreached
        obtain ⟨other, hother, hid⟩ := List.mem_map.mp hreached
        obtain ⟨gid, -, hserved⟩ := List.mem_filterMap.mp hother
        have hmember := (mem_of_served hserved).1
        rw [hholds.group, mem_members_iff] at hmember
        obtain ⟨hregistered, -, hgroup, -⟩ := (hholds.universal id consumer).mp hconsumer
        apply id_ne_of_group_ne hrepresents.nodup hmember.1 hregistered _ hid
        rw [hgroup, hmember.2.2.1]
        exact hmember.2.2.2
      · intro reached delivery id hdelivered hready
        exact hdelivered.sendToUniversal hholds.filed hready
      · intro reached delivery id other hne hready consumer hconsumer
        apply not_mem_reached (hready consumer hconsumer)
        intro earlier hearlier hid
        have hentry := (openUniversal_eq_some.mp hearlier).1
        have hearlierID := (hholds.filed.universal id earlier hentry).2.1
        have hconsumerID := (hholds.filed.universal other consumer hconsumer).2.1
        exact hne (hearlierID.symm.trans (hid.trans hconsumerID))

end Dispatch

/-! ## Exactness -/

/-- Where the rounds for different keys have outcomes with different labels, the
outcomes with the label of a key are those of that key. -/
theorem filter_filterMap {α β : Type*} [DecidableEq β] {outcome : β → Option α}
    {label : α → β} (hlabel : ∀ key value, outcome key = some value → label value = key)
    {keys : List β} (hnodup : keys.Nodup) {key : β} (hkey : key ∈ keys) :
    (keys.filterMap outcome).filter (fun value => label value = key) =
      (outcome key).toList := by
  have hother : ∀ others : List β, key ∉ others →
      (others.filterMap outcome).filter (fun value => label value = key) = [] := by
    intro others hothers
    rw [List.filter_eq_nil_iff]
    intro value hvalue
    obtain ⟨other, hmem, houtcome⟩ := List.mem_filterMap.mp hvalue
    have hne : other ≠ key := fun heq => hothers (heq ▸ hmem)
    simpa [hlabel other value houtcome] using hne
  obtain ⟨before, after, rfl⟩ := List.append_of_mem hkey
  rw [List.nodup_append, List.nodup_cons] at hnodup
  obtain ⟨-, ⟨hafter, -⟩, hbefore⟩ := hnodup
  have hnotBefore : key ∉ before := fun hmem =>
    hbefore key hmem key List.mem_cons_self rfl
  rw [List.filterMap_append, List.filter_append, hother before hnotBefore,
    List.nil_append]
  cases houtcome : outcome key with
  | none => rw [List.filterMap_cons_none houtcome, hother after hafter, Option.toList_none]
  | some value =>
      rw [List.filterMap_cons_some houtcome,
        List.filter_cons_of_pos (by simp [hlabel key value houtcome]),
        hother after hafter, Option.toList_some]

section Exactness

variable {hub : Hub} {registered : List ConsumerEntry} {topic : String}
variable {sub : TopicSubscription}

theorem mem_chosen (hholds : Holds sub registered topic) {order : DispatchOrder}
    {receiver : ConsumerEntry} (hreceiver : receiver ∈ chosen order hub sub) :
    receiver ∈ registered ∧ receiver.topic = topic ∧ hub.hasRoom receiver := by
  rcases List.mem_append.mp hreceiver with hgroup | huniversal
  · obtain ⟨gid, -, hserved⟩ := List.mem_filterMap.mp hgroup
    obtain ⟨hmember, hroom⟩ := mem_of_served hserved
    rw [hholds.group, mem_members_iff] at hmember
    exact ⟨hmember.1, hmember.2.1, hroom⟩
  · obtain ⟨id, -, hopen⟩ := List.mem_filterMap.mp huniversal
    obtain ⟨hentry, hroom⟩ := openUniversal_eq_some.mp hopen
    obtain ⟨hregistered, htopic, -⟩ := (hholds.universal id receiver).mp hentry
    exact ⟨hregistered, htopic, hroom⟩

theorem filter_chosen_group (hholds : Holds sub registered topic)
    (order : DispatchOrder) {gid : String} (hservable : Servable hub registered topic gid) :
    (chosen order hub sub).filter (fun receiver => receiver.group = gid) =
      (served hub sub gid).toList := by
  obtain ⟨consumer, hconsumer, -⟩ := hservable
  have hgid := (mem_members_iff.mp hconsumer).2.2.2
  have hentry : sub.groups[gid]? = some (members registered topic gid) := by
    rw [hholds.groups, kept, if_neg]
    rw [List.isEmpty_iff]
    exact List.ne_nil_of_mem hconsumer
  have huniversal : ((order.universal.arrange sub.universal.keys).filterMap
      (openUniversal hub sub)).filter (fun receiver => receiver.group = gid) = [] := by
    rw [List.filter_eq_nil_iff]
    intro receiver hreceiver
    obtain ⟨id, -, hopen⟩ := List.mem_filterMap.mp hreceiver
    have hempty := (hholds.filed.universal id receiver
      (openUniversal_eq_some.mp hopen).1).2.2
    simpa [hempty] using Ne.symm hgid
  rw [chosen, List.filter_append, huniversal, List.append_nil]
  apply filter_filterMap _ (nodup_arrange_keys order.groups sub.groups)
    (mem_arrange_keys order.groups hentry)
  intro key receiver hserved
  exact (hholds.filed.groups key receiver (mem_of_served hserved).1).2.1

theorem count_chosen_universal (hholds : Holds sub registered topic)
    (order : DispatchOrder) {consumer : ConsumerEntry} (hregistered : consumer ∈ registered)
    (htopic : consumer.topic = topic) (hgroup : consumer.group = "")
    (hroom : hub.hasRoom consumer) : (chosen order hub sub).count consumer = 1 := by
  have hentry := (hholds.universal consumer.id consumer).mpr
    ⟨hregistered, htopic, hgroup, rfl⟩
  have hgroups : consumer ∉ (order.groups.arrange sub.groups.keys).filterMap
      (served hub sub) := by
    intro hreceiver
    obtain ⟨gid, -, hserved⟩ := List.mem_filterMap.mp hreceiver
    obtain ⟨-, hgid, hne⟩ := hholds.filed.groups gid consumer
      (mem_of_served hserved).1
    exact hne (hgid.symm.trans hgroup)
  rw [chosen, List.count_append, List.count_eq_zero_of_not_mem hgroups, Nat.zero_add,
    ← List.count_filter (p := fun receiver => receiver.id = consumer.id) (by simp),
    filter_filterMap _ (nodup_arrange_keys order.universal sub.universal)
      (mem_arrange_keys order.universal hentry),
    openUniversal_eq_some.mpr ⟨hentry, hroom⟩]
  · simp
  · intro key receiver hopen
    exact (hholds.filed.universal key receiver
      (openUniversal_eq_some.mp hopen).1).2.1

/-- The position in its group of the consumer at the group's counter. -/
def turn (hub : Hub) (registered : List ConsumerEntry) (topic gid : String) : ℕ :=
  (hub.next[topic ++ "|" ++ gid]?.getD 0 %
    UInt64.ofNat (members registered topic gid).length).toNat

theorem select_members (hub : Hub) (registered : List ConsumerEntry) (topic gid : String) :
    (hub.select (members registered topic gid)).1 =
      (members registered topic gid)[turn hub registered topic gid]? := by
  rw [turn]
  cases hmembers : members registered topic gid with
  | nil => rfl
  | cons first rest =>
      have hfirst : first ∈ members registered topic gid := by
        rw [hmembers]
        exact List.mem_cons_self
      obtain ⟨-, htopic, hgroup, hnonempty⟩ := mem_members_iff.mp hfirst
      have hkey : first.groupKey = topic ++ "|" ++ gid := by
        rw [ConsumerEntry.groupKey, hgroup, htopic, if_neg hnonempty]
      rw [Hub.select, hkey]

/-- A dispatch is exact precisely when in every group that has a consumer with room
the consumer at the group's counter has room. -/
theorem fan_out_exact_iff (hrepresents : Represents hub registered)
    (order : DispatchOrder) (topic : String) (msg : QueueMessage)
    (deliveryTag : Bytes) :
    Exact hub registered topic msg deliveryTag
        (hub.dispatchToTopic order topic msg deliveryTag) ↔
      ∀ gid, Servable hub registered topic gid →
        ∃ selected,
          (members registered topic gid)[turn hub registered topic gid]? =
            some selected ∧
          hub.hasRoom selected := by
  have hholds := hrepresents.subscription topic
  have hdelivered := delivered_dispatchToTopic hrepresents order topic msg deliveryTag
  have hserved : ∀ gid selected, served hub (hub.subscription topic) gid = some selected ↔
      (members registered topic gid)[turn hub registered topic gid]? = some selected ∧
        hub.hasRoom selected := by
    intro gid selected
    rw [served, Option.filter_eq_some_iff, hholds.group, select_members,
      decide_eq_true_iff]
  constructor
  · intro hexact gid hservable
    have hone := hexact.groups gid hservable
    rw [hdelivered.receivers, filter_chosen_group hholds order hservable] at hone
    cases hfound : served hub (hub.subscription topic) gid with
    | none =>
        rw [hfound] at hone
        cases hone
    | some selected => exact ⟨selected, (hserved gid selected).mp hfound⟩
  · intro hpicks
    constructor
    · rw [hdelivered.receivers]
      exact hdelivered
    · intro receiver hreceiver
      rw [hdelivered.receivers] at hreceiver
      exact mem_chosen hholds hreceiver
    · intro gid hservable
      obtain ⟨selected, hselected⟩ := hpicks gid hservable
      rw [hdelivered.receivers, filter_chosen_group hholds order hservable,
        (hserved gid selected).mpr hselected]
      rfl
    · intro consumer hregistered htopic hgroup hroom
      rw [hdelivered.receivers]
      exact count_chosen_universal hholds order hregistered htopic hgroup hroom

end Exactness

def billing (id : String) : ConsumerEntry := ⟨id, "orders", "billing"⟩

def order : QueueMessage := ⟨"orders", [1], [7], 0, 0⟩

/-- Two consumers of one group; the channel of the first is full. -/
def firstFull : Hub :=
  { (newHub.register (billing "a")).register (billing "b") with
    channels := (∅ : Table (List QueueMessage)).insert "a"
      (List.replicate channelCapacity order) }

theorem represents_firstFull : Represents firstFull [billing "a", billing "b"] := by
  have hfirst : Represents (newHub.register (billing "a")) [billing "a"] :=
    represents_newHub.register (by simp [newHub])
  exact (hfirst.register (by decide +kernel)).congr rfl rfl

/-- The counter of the group has moved on to the second consumer. -/
def secondNext : Hub :=
  { firstFull with next := (∅ : Table UInt64).insert "orders|billing" 1 }

theorem fan_out_exact_iff_secondNext :
    ¬ secondNext.hasRoom (billing "a") ∧
      Exact secondNext [billing "a", billing "b"] "orders" order [7]
        (secondNext.dispatchToTopic .sorted "orders" order [7]) := by
  have hrepresents : Represents secondNext [billing "a", billing "b"] :=
    represents_firstFull.congr rfl rfl
  refine ⟨by decide +kernel, (fan_out_exact_iff hrepresents .sorted "orders" order [7]).mpr ?_⟩
  rintro gid ⟨consumer, hmember, -⟩
  obtain ⟨hregistered, -, hgroup, -⟩ := mem_members_iff.mp hmember
  have hgid : gid = "billing" := by
    rcases List.mem_pair.mp hregistered with rfl | rfl
    · exact hgroup.symm
    · exact hgroup.symm
  subst hgid
  exact ⟨billing "b", by decide +kernel, by decide +kernel⟩

/-- Of two consumers the strategy picks the first, whose channel is full: nobody
receives the message although the second has room. -/
theorem full_pick_is_not_replaced :
    ∃ hub : Hub, Represents hub [billing "a", billing "b"] ∧
      (hub.dispatchToTopic .sorted "orders" order [7]).receivers = [] ∧
      Servable hub [billing "a", billing "b"] "orders" "billing" := by
  refine ⟨firstFull, represents_firstFull, by decide +kernel, ?_⟩
  exact ⟨billing "b", by decide, by decide +kernel⟩

end FutureQ.Fanout
