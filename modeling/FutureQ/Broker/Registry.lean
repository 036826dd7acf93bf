import FutureQ.Core.Transition
import FutureQ.Broker.Subscriptions

/-!
# The indexes of the hub

What the hub stands for is the list of the registered consumers, in the order in
which they came.  `topics` and `byID` are two indexes of that list: the list of a
group is the part of it with that topic and group, and no empty group and no
empty subscription is kept.  `Register` with an id that is not taken appends to
the list and `Unregister` filters it.
-/

namespace FutureQ.Registry

open FutureQ.ByteOrder
open FutureQ.OrderedStore
open FutureQ.Transition
open FutureQ.Consumers

/-- The members of a group among the registered consumers. -/
def members (registered : List ConsumerEntry) (topic gid : String) :
    List ConsumerEntry :=
  registered.filter fun consumer =>
    consumer.topic = topic ∧ consumer.group = gid ∧ gid ≠ ""

/-- The subscription indexes the registered consumers of the topic. -/
structure Holds (sub : TopicSubscription) (registered : List ConsumerEntry)
    (topic : String) : Prop where
  groups : ∀ gid : String, sub.groups[gid]? = kept (members registered topic gid)
  universal : ∀ (id : String) (consumer : ConsumerEntry),
    sub.universal[id]? = some consumer ↔ consumer ∈ registered ∧
      consumer.topic = topic ∧ consumer.group = "" ∧ consumer.id = id

/-- The table has a subscription for every topic with a registered consumer and
for no other. -/
structure Indexes (topics : Table TopicSubscription)
    (registered : List ConsumerEntry) : Prop where
  present : ∀ (topic : String) (sub : TopicSubscription),
    topics[topic]? = some sub → Holds sub registered topic ∧ sub.isEmpty = false
  absent : ∀ topic : String, topics[topic]? = none →
    ∀ consumer ∈ registered, consumer.topic ≠ topic

/-- The hub stands for the registered consumers. -/
structure Represents (hub : Hub) (registered : List ConsumerEntry) : Prop where
  nodup : (registered.map ConsumerEntry.id).Nodup
  byID : ∀ (id : String) (consumer : ConsumerEntry),
    hub.byID[id]? = some consumer ↔ consumer ∈ registered ∧ consumer.id = id
  topics : Indexes hub.topics registered

/-! ## Lists of consumers -/

theorem mem_members_iff {registered : List ConsumerEntry} {topic gid : String}
    {consumer : ConsumerEntry} :
    consumer ∈ members registered topic gid ↔ consumer ∈ registered ∧
      consumer.topic = topic ∧ consumer.group = gid ∧ gid ≠ "" := by
  simp [members]

theorem nodup_members {registered : List ConsumerEntry}
    (hnodup : (registered.map ConsumerEntry.id).Nodup) (topic gid : String) :
    ((members registered topic gid).map ConsumerEntry.id).Nodup :=
  hnodup.sublist (List.filter_sublist.map _)

theorem members_append (registered : List ConsumerEntry) (consumer : ConsumerEntry)
    (topic gid : String) :
    members (registered ++ [consumer]) topic gid =
      if consumer.topic = topic ∧ consumer.group = gid ∧ gid ≠ "" then
        members registered topic gid ++ [consumer]
      else members registered topic gid := by
  rw [members, List.filter_append]
  split_ifs with hmember
  · rw [List.filter_cons_of_pos (by simpa using hmember)]
    rfl
  · rw [List.filter_cons_of_neg (by simpa using hmember)]
    exact List.append_nil _

theorem eq_of_id {registered : List ConsumerEntry}
    (hnodup : (registered.map ConsumerEntry.id).Nodup) {first second : ConsumerEntry}
    (hfirst : first ∈ registered) (hsecond : second ∈ registered)
    (hid : first.id = second.id) : first = second :=
  List.inj_on_of_nodup_map hnodup hfirst hsecond hid

/-- The consumers that stay when an id leaves. -/
def without (registered : List ConsumerEntry) (id : String) : List ConsumerEntry :=
  registered.filter fun consumer => consumer.id ≠ id

theorem mem_without_iff {registered : List ConsumerEntry} {id : String}
    {consumer : ConsumerEntry} :
    consumer ∈ without registered id ↔ consumer ∈ registered ∧ consumer.id ≠ id := by
  simp [without]

theorem members_without (registered : List ConsumerEntry) (topic gid id : String) :
    members (without registered id) topic gid =
      without (members registered topic gid) id := by
  rw [members, without, members, without, List.filter_comm]

theorem without_of_forall {registered : List ConsumerEntry} {id : String}
    (hne : ∀ consumer ∈ registered, consumer.id ≠ id) :
    without registered id = registered := by
  rw [without, List.filter_eq_self]
  simpa using hne

/-- Where an id occurs once, dropping its first occurrence drops it. -/
theorem eraseP_eq_without {registered : List ConsumerEntry}
    (hnodup : (registered.map ConsumerEntry.id).Nodup) (id : String) :
    (registered.eraseP fun consumer => consumer.id = id) = without registered id := by
  induction registered with
  | nil => rfl
  | cons consumer registered ih =>
      rw [List.map_cons, List.nodup_cons] at hnodup
      obtain ⟨hfresh, hnodup⟩ := hnodup
      by_cases hid : consumer.id = id
      · have hrest : without registered id = registered := by
          apply without_of_forall
          rintro other hother rfl
          exact hfresh (hid ▸ List.mem_map_of_mem hother)
        rw [List.eraseP_cons_of_pos (by simpa using hid), without,
          List.filter_cons_of_neg (by simpa using hid)]
        exact hrest.symm
      · rw [List.eraseP_cons_of_neg (by simpa using hid), without,
          List.filter_cons_of_pos (by simpa using hid), ih hnodup, without]

/-! ## Subscriptions -/

section Holds

variable {sub : TopicSubscription} {registered : List ConsumerEntry} {topic : String}

theorem Holds.group (hholds : Holds sub registered topic) (gid : String) :
    sub.group gid = members registered topic gid := by
  rw [TopicSubscription.group, hholds.groups, getD_kept]

theorem holds_newTopicSubscription
    (hnone : ∀ consumer ∈ registered, consumer.topic ≠ topic) :
    Holds newTopicSubscription registered topic := by
  constructor
  · intro gid
    have hmembers : members registered topic gid = [] := by
      rw [members, List.filter_eq_nil_iff]
      intro consumer hconsumer
      simp [hnone consumer hconsumer]
    simp [hmembers, newTopicSubscription, kept]
  · intro id consumer
    constructor
    · intro hentry
      simp [newTopicSubscription] at hentry
    · rintro ⟨hconsumer, htopic, -⟩
      exact absurd htopic (hnone consumer hconsumer)

theorem Holds.filed (hholds : Holds sub registered topic) : sub.Filed topic := by
  constructor
  · intro gid consumer hconsumer
    rw [hholds.group] at hconsumer
    exact (mem_members_iff.mp hconsumer).2
  · intro id consumer hconsumer
    obtain ⟨-, htopic, hgroup, hid⟩ := (hholds.universal id consumer).mp hconsumer
    exact ⟨htopic, hid, hgroup⟩

/-- A subscription is empty when nobody is registered on its topic. -/
theorem Holds.isEmpty_iff (hholds : Holds sub registered topic) :
    sub.isEmpty = true ↔ ∀ consumer ∈ registered, consumer.topic ≠ topic := by
  rw [TopicSubscription.isEmpty, Bool.and_eq_true, Std.ExtTreeMap.isEmpty_iff,
    Std.ExtTreeMap.isEmpty_iff]
  constructor
  · rintro ⟨hgroups, huniversal⟩ consumer hconsumer rfl
    by_cases hgroup : consumer.group = ""
    · have hentry := (hholds.universal consumer.id consumer).mpr
        ⟨hconsumer, rfl, hgroup, rfl⟩
      simp [huniversal] at hentry
    · have hmember : consumer ∈ members registered consumer.topic consumer.group :=
        mem_members_iff.mpr ⟨hconsumer, rfl, rfl, hgroup⟩
      have hnone := hholds.groups consumer.group
      rw [hgroups, Std.ExtTreeMap.getElem?_empty, eq_comm, kept_eq_none_iff] at hnone
      rw [hnone] at hmember
      exact List.not_mem_nil hmember
  · intro hnone
    have hnew := holds_newTopicSubscription hnone
    constructor
    · apply Std.ExtTreeMap.ext_getElem?
      intro gid
      rw [hholds.groups, ← hnew.groups, newTopicSubscription]
    · apply Std.ExtTreeMap.ext_getElem?
      intro id
      ext consumer
      rw [hholds.universal, ← hnew.universal, newTopicSubscription]

theorem Holds.add (hholds : Holds sub registered topic) {consumer : ConsumerEntry}
    (hfresh : ∀ other ∈ registered, other.id ≠ consumer.id)
    (htopic : consumer.topic = topic) :
    Holds (sub.add consumer) (registered ++ [consumer]) topic := by
  constructor
  · intro gid
    rw [groups_add, members_append, hholds.group, hholds.groups]
    by_cases hgid : consumer.group = gid ∧ gid ≠ ""
    · rw [if_pos hgid, if_pos ⟨htopic, hgid⟩, kept_append_singleton]
    · rw [if_neg hgid, if_neg fun hsame => hgid hsame.2]
  · intro id other
    rw [universal_add, List.mem_append, List.mem_singleton]
    by_cases hplace : consumer.group = "" ∧ consumer.id = id
    · rw [if_pos hplace, Option.some.injEq]
      constructor
      · rintro rfl
        exact ⟨.inr rfl, htopic, hplace⟩
      · rintro ⟨hother | rfl, -, -, hid⟩
        · exact absurd (hid.trans hplace.2.symm) (hfresh other hother)
        · rfl
    · rw [if_neg hplace, hholds.universal]
      constructor
      · rintro ⟨hother, hrest⟩
        exact ⟨.inl hother, hrest⟩
      · rintro ⟨hother | rfl, htopic, hrest⟩
        · exact ⟨hother, htopic, hrest⟩
        · exact absurd hrest hplace

theorem Holds.remove (hholds : Holds sub registered topic)
    (hnodup : (registered.map ConsumerEntry.id).Nodup) {consumer : ConsumerEntry}
    (hconsumer : consumer ∈ registered) :
    Holds (sub.remove consumer) (without registered consumer.id) topic := by
  constructor
  · intro gid
    rw [groups_remove, members_without, hholds.group, hholds.groups]
    split_ifs with hgid
    · rw [eraseP_eq_without (nodup_members hnodup topic gid)]
    · rw [without_of_forall]
      intro other hother hid
      obtain ⟨hmem, -, hgroup, hne⟩ := mem_members_iff.mp hother
      rw [eq_of_id hnodup hmem hconsumer hid] at hgroup
      exact hgid ⟨hgroup, hne⟩
  · intro id other
    rw [universal_remove, mem_without_iff]
    split_ifs with hplace
    · constructor
      · intro hentry
        cases hentry
      · rintro ⟨⟨-, hne⟩, -, -, hid⟩
        exact absurd (hid.trans hplace.2.symm) hne
    · rw [hholds.universal]
      constructor
      · rintro ⟨hother, htopic, hgroup, hid⟩
        refine ⟨⟨hother, fun hsame => hplace ?_⟩, htopic, hgroup, hid⟩
        rw [← eq_of_id hnodup hother hconsumer hsame]
        exact ⟨hgroup, hid⟩
      · rintro ⟨⟨hother, -⟩, hrest⟩
        exact ⟨hother, hrest⟩

/-- The registered consumers of a topic. -/
def onTopic (registered : List ConsumerEntry) (topic : String) : List ConsumerEntry :=
  registered.filter fun consumer => consumer.topic = topic

theorem mem_onTopic_iff {consumer : ConsumerEntry} :
    consumer ∈ onTopic registered topic ↔
      consumer ∈ registered ∧ consumer.topic = topic := by
  simp [onTopic]

theorem onTopic_append_other {consumer : ConsumerEntry}
    (htopic : consumer.topic ≠ topic) :
    onTopic (registered ++ [consumer]) topic = onTopic registered topic := by
  rw [onTopic, List.filter_append, List.filter_cons_of_neg (by simpa using htopic)]
  exact List.append_nil _

theorem onTopic_without_other
    (hnodup : (registered.map ConsumerEntry.id).Nodup) {consumer : ConsumerEntry}
    (hconsumer : consumer ∈ registered) (htopic : consumer.topic ≠ topic) :
    onTopic (without registered consumer.id) topic = onTopic registered topic := by
  rw [onTopic, without, List.filter_comm]
  apply without_of_forall
  intro other hother hid
  obtain ⟨hmem, hsame⟩ := mem_onTopic_iff.mp hother
  rw [eq_of_id hnodup hmem hconsumer hid] at hsame
  exact htopic hsame

/-- What a subscription holds depends on the consumers of its topic only. -/
theorem Holds.congr (hholds : Holds sub registered topic) {others : List ConsumerEntry}
    (hsame : onTopic others topic = onTopic registered topic) :
    Holds sub others topic := by
  have hmembers : ∀ (consumers : List ConsumerEntry) (gid : String),
      members consumers topic gid =
        (onTopic consumers topic).filter fun consumer =>
          consumer.group = gid ∧ gid ≠ "" := by
    intro consumers gid
    simp [members, onTopic, List.filter_filter, Bool.and_comm]
  constructor
  · intro gid
    rw [hholds.groups, hmembers registered, hmembers others, hsame]
  · intro id consumer
    rw [hholds.universal, ← and_assoc, ← mem_onTopic_iff, ← hsame, mem_onTopic_iff,
      and_assoc]

end Holds

/-! ## The hub -/

section Represents

variable {hub : Hub} {registered : List ConsumerEntry}

/-- One topic gets a new subscription, or none if it would be empty. -/
theorem Indexes.update {topics updated : Table TopicSubscription}
    {consumers : List ConsumerEntry} {changed : String} {sub : TopicSubscription}
    (hindexes : Indexes topics registered) (hholds : Holds sub consumers changed)
    (hchanged : updated[changed]? = if sub.isEmpty then none else some sub)
    (hother : ∀ topic, changed ≠ topic → updated[topic]? = topics[topic]? ∧
      onTopic consumers topic = onTopic registered topic) :
    Indexes updated consumers := by
  constructor
  · intro topic found hfound
    by_cases htopic : changed = topic
    · subst htopic
      rw [hchanged] at hfound
      split_ifs at hfound with hempty
      cases hfound
      exact ⟨hholds, by simpa using hempty⟩
    · obtain ⟨hentry, hsame⟩ := hother topic htopic
      rw [hentry] at hfound
      obtain ⟨hfound, hnonempty⟩ := hindexes.present topic found hfound
      exact ⟨hfound.congr hsame, hnonempty⟩
  · intro topic hnone consumer hconsumer hsame
    by_cases htopic : changed = topic
    · subst htopic
      rw [hchanged] at hnone
      split_ifs at hnone with hempty
      exact hholds.isEmpty_iff.mp hempty consumer hconsumer hsame
    · obtain ⟨hentry, hfilter⟩ := hother topic htopic
      rw [hentry] at hnone
      have hmem : consumer ∈ onTopic registered topic :=
        hfilter ▸ mem_onTopic_iff.mpr ⟨hconsumer, hsame⟩
      exact hindexes.absent topic hnone consumer (mem_onTopic_iff.mp hmem).1 hsame

theorem represents_newHub : Represents newHub [] := by
  refine ⟨List.nodup_nil, ?_, ?_, ?_⟩
  · intro id consumer
    simp [newHub]
  · intro topic sub hsub
    simp [newHub] at hsub
  · intro topic _ consumer hconsumer
    exact absurd hconsumer List.not_mem_nil

theorem Represents.subscription (hrepresents : Represents hub registered)
    (topic : String) : Holds (hub.subscription topic) registered topic := by
  rw [Hub.subscription]
  cases hsub : hub.topics[topic]? with
  | none => exact holds_newTopicSubscription (hrepresents.topics.absent topic hsub)
  | some sub => exact (hrepresents.topics.present topic sub hsub).1

theorem Represents.id_mem_iff (hrepresents : Represents hub registered) {id : String} :
    id ∈ hub.byID ↔ ∃ consumer ∈ registered, consumer.id = id := by
  rw [Std.ExtTreeMap.mem_iff_isSome_getElem?, Option.isSome_iff_exists]
  simp only [hrepresents.byID]

theorem Represents.register (hrepresents : Represents hub registered)
    {consumer : ConsumerEntry} (hfresh : consumer.id ∉ hub.byID) :
    Represents (hub.register consumer) (registered ++ [consumer]) := by
  have hnew : ∀ other ∈ registered, other.id ≠ consumer.id := by
    intro other hother hid
    exact hfresh (hrepresents.id_mem_iff.mpr ⟨other, hother, hid⟩)
  refine ⟨?_, ?_, ?_⟩
  · rw [List.map_append, List.nodup_append]
    refine ⟨hrepresents.nodup, List.nodup_singleton _, ?_⟩
    intro id hid other hother
    obtain ⟨known, hknown, rfl⟩ := List.mem_map.mp hid
    rw [List.mem_singleton.mp hother]
    exact hnew known hknown
  · intro id other
    rw [Hub.register, Std.ExtTreeMap.getElem?_insert, List.mem_append,
      List.mem_singleton]
    by_cases hid : consumer.id = id
    · subst hid
      rw [if_pos Std.ReflCmp.compare_self, Option.some.injEq]
      constructor
      · rintro rfl
        exact ⟨.inr rfl, rfl⟩
      · rintro ⟨hother | rfl, hid⟩
        · exact absurd hid (hnew other hother)
        · rfl
    · rw [if_neg fun heq => hid (Std.LawfulEqCmp.eq_of_compare heq), hrepresents.byID]
      constructor
      · rintro ⟨hother, hsame⟩
        exact ⟨.inl hother, hsame⟩
      · rintro ⟨hother | rfl, hsame⟩
        · exact ⟨hother, hsame⟩
        · exact absurd hsame hid
  · have hadded := (hrepresents.subscription consumer.topic).add hnew rfl
    have hnonempty : ¬ ((hub.subscription consumer.topic).add consumer).isEmpty = true := by
      rw [hadded.isEmpty_iff]
      exact fun hnone => hnone consumer (List.mem_append_right _ List.mem_cons_self) rfl
    apply hrepresents.topics.update hadded
    · rw [if_neg hnonempty]
      exact Std.ExtTreeMap.getElem?_insert_self
    · intro topic htopic
      exact ⟨getElem?_insert_ne htopic _, onTopic_append_other htopic⟩

theorem Represents.unregister (hrepresents : Represents hub registered) (id : String) :
    Represents (hub.unregister id) (without registered id) := by
  rw [Hub.unregister]
  cases hentry : hub.byID[id]? with
  | none =>
      have hnone : ∀ consumer ∈ registered, consumer.id ≠ id := by
        intro consumer hconsumer hid
        rw [(hrepresents.byID id consumer).mpr ⟨hconsumer, hid⟩] at hentry
        cases hentry
      rw [without_of_forall hnone]
      exact hrepresents
  | some entry =>
      obtain ⟨hmem, rfl⟩ := (hrepresents.byID id entry).mp hentry
      refine ⟨hrepresents.nodup.sublist (List.filter_sublist.map _), ?_, ?_⟩
      · intro id consumer
        simp only [Std.ExtTreeMap.getElem?_erase, mem_without_iff]
        by_cases hid : entry.id = id
        · subst hid
          rw [if_pos Std.ReflCmp.compare_self]
          constructor
          · intro hfound
            cases hfound
          · rintro ⟨⟨-, hne⟩, hsame⟩
            exact absurd hsame hne
        · rw [if_neg fun heq => hid (Std.LawfulEqCmp.eq_of_compare heq),
            hrepresents.byID]
          constructor
          · rintro ⟨hconsumer, rfl⟩
            exact ⟨⟨hconsumer, Ne.symm hid⟩, rfl⟩
          · rintro ⟨⟨hconsumer, -⟩, hsame⟩
            exact ⟨hconsumer, hsame⟩
      · cases hsub : hub.topics[entry.topic]? with
        | none => exact absurd rfl (hrepresents.topics.absent entry.topic hsub entry hmem)
        | some sub =>
            have hremoved := (hrepresents.topics.present entry.topic sub hsub).1.remove
              hrepresents.nodup hmem
            simp only [hsub]
            apply hrepresents.topics.update hremoved
            · split_ifs
              · exact Std.ExtTreeMap.getElem?_erase_self
              · exact Std.ExtTreeMap.getElem?_insert_self
            · intro topic htopic
              refine ⟨?_, onTopic_without_other hrepresents.nodup hmem htopic⟩
              split_ifs
              · exact getElem?_erase_ne htopic
              · exact getElem?_insert_ne htopic _

end Represents

/-! ## Runs -/

inductive Action where
  | register (consumer : ConsumerEntry)
  | unregister (id : String)
  | dispatchToTopic (order : DispatchOrder) (topic : String) (msg : QueueMessage)
      (deliveryTag : Bytes)
  | removeInFlightForConsumer (consumerID : String) (key : Bytes)
  | receive (id : String)

/-- `Subscribe` registers under an id that nobody has. -/
def step (hub : Hub) : Action → Option Hub
  | .register consumer =>
      if consumer.id ∈ hub.byID then none else some (hub.register consumer)
  | .unregister id => some (hub.unregister id)
  | .dispatchToTopic order topic msg deliveryTag =>
      some (hub.dispatchToTopic order topic msg deliveryTag).hub
  | .removeInFlightForConsumer consumerID key =>
      some (hub.removeInFlightForConsumer consumerID key)
  | .receive id => some (hub.receive id)

/-- Only the two indexes count. -/
theorem Represents.congr {hub other : Hub} {registered : List ConsumerEntry}
    (hrepresents : Represents hub registered) (htopics : other.topics = hub.topics)
    (hbyID : other.byID = hub.byID) : Represents other registered :=
  ⟨hrepresents.nodup, hbyID ▸ hrepresents.byID, htopics ▸ hrepresents.topics⟩

def Sound (hub : Hub) : Prop := ∃ registered, Represents hub registered

theorem Sound.congr {hub other : Hub} (hsound : Sound hub)
    (htopics : other.topics = hub.topics) (hbyID : other.byID = hub.byID) :
    Sound other := by
  obtain ⟨registered, hrepresents⟩ := hsound
  exact ⟨registered, hrepresents.congr htopics hbyID⟩

theorem topics_removeInFlight (hub : Hub) (consumerID : String) (key : Bytes) :
    (hub.removeInFlightForConsumer consumerID key).topics = hub.topics := by
  rw [Hub.removeInFlightForConsumer]
  split_ifs
  · rfl
  · rfl

theorem byID_removeInFlight (hub : Hub) (consumerID : String) (key : Bytes) :
    (hub.removeInFlightForConsumer consumerID key).byID = hub.byID := by
  rw [Hub.removeInFlightForConsumer]
  split_ifs
  · rfl
  · rfl

theorem Sound.step {hub next : Hub} {action : Action} (hsound : Sound hub)
    (hstep : step hub action = some next) : Sound next := by
  cases action with
  | register consumer =>
      obtain ⟨registered, hrepresents⟩ := hsound
      simp only [Registry.step, Option.ite_none_left_eq_some, Option.some.injEq] at hstep
      obtain ⟨hfresh, rfl⟩ := hstep
      exact ⟨_, hrepresents.register hfresh⟩
  | unregister id =>
      obtain ⟨registered, hrepresents⟩ := hsound
      cases hstep
      exact ⟨_, hrepresents.unregister id⟩
  | dispatchToTopic order topic msg deliveryTag =>
      cases hstep
      have hextends := extends_dispatchToTopic order hub topic msg deliveryTag
      exact hsound.congr hextends.topics hextends.byID
  | removeInFlightForConsumer consumerID key =>
      cases hstep
      exact hsound.congr (topics_removeInFlight hub consumerID key)
        (byID_removeInFlight hub consumerID key)
  | receive id =>
      cases hstep
      exact hsound.congr rfl rfl

theorem sound_of_run {actions : List Action} {hub : Hub}
    (hrun : run Registry.step newHub actions = some hub) : Sound hub :=
  run_preserves (fun _ _ _ hsound hstep => hsound.step hstep)
    ⟨[], represents_newHub⟩ hrun

/-! ## Where a consumer is listed -/

/-- A place for an entry in the subscriptions: a position in the list of a group,
or a key of the universal map. -/
inductive Place where
  | group (topic gid : String) (position : ℕ)
  | universal (topic id : String)

def entryAt (hub : Hub) : Place → Option ConsumerEntry
  | .group topic gid position => ((hub.subscription topic).group gid)[position]?
  | .universal topic id => (hub.subscription topic).universal[id]?

/-- The place is in the topic of the consumer, in the list of its group or, if the
group is empty, in the universal map. -/
def Place.IsOf (consumer : ConsumerEntry) : Place → Prop
  | .group topic gid _ =>
      topic = consumer.topic ∧ gid = consumer.group ∧ consumer.group ≠ ""
  | .universal topic id =>
      topic = consumer.topic ∧ id = consumer.id ∧ consumer.group = ""

/-- There is one entry with this id, and it is where it belongs. -/
def ListedOnce (hub : Hub) (id : String) : Prop :=
  ∃ place consumer, entryAt hub place = some consumer ∧ consumer.id = id ∧
    place.IsOf consumer ∧
    ∀ other found, entryAt hub other = some found → found.id = id → other = place

section Places

variable {hub : Hub} {registered : List ConsumerEntry}

theorem Represents.of_entryAt (hrepresents : Represents hub registered) {place : Place}
    {consumer : ConsumerEntry} (hentry : entryAt hub place = some consumer) :
    consumer ∈ registered ∧ place.IsOf consumer := by
  cases place with
  | group topic gid position =>
      have hmem := List.mem_of_getElem? hentry
      rw [(hrepresents.subscription topic).group, mem_members_iff] at hmem
      obtain ⟨hmem, rfl, rfl, hgroup⟩ := hmem
      exact ⟨hmem, rfl, rfl, hgroup⟩
  | universal topic id =>
      obtain ⟨hmem, rfl, hgroup, rfl⟩ :=
        ((hrepresents.subscription topic).universal id consumer).mp hentry
      exact ⟨hmem, rfl, rfl, hgroup⟩

theorem Represents.exists_place (hrepresents : Represents hub registered)
    {consumer : ConsumerEntry} (hmem : consumer ∈ registered) :
    ∃ place, entryAt hub place = some consumer := by
  have hholds := hrepresents.subscription consumer.topic
  by_cases hgroup : consumer.group = ""
  · exact ⟨.universal consumer.topic consumer.id,
      (hholds.universal _ _).mpr ⟨hmem, rfl, hgroup, rfl⟩⟩
  · have hmember : consumer ∈ (hub.subscription consumer.topic).group consumer.group := by
      rw [hholds.group]
      exact mem_members_iff.mpr ⟨hmem, rfl, rfl, hgroup⟩
    obtain ⟨position, hposition⟩ := List.mem_iff_getElem?.mp hmember
    exact ⟨.group consumer.topic consumer.group position, hposition⟩

/-- Two places with the same id are the same place. -/
theorem Represents.place_unique (hrepresents : Represents hub registered)
    {first second : Place} {consumer other : ConsumerEntry}
    (hfirst : entryAt hub first = some consumer)
    (hsecond : entryAt hub second = some other) (hid : other.id = consumer.id) :
    second = first := by
  obtain ⟨hmem, hplace⟩ := hrepresents.of_entryAt hfirst
  obtain ⟨hother, hotherPlace⟩ := hrepresents.of_entryAt hsecond
  obtain rfl := eq_of_id hrepresents.nodup hother hmem hid
  cases first with
  | group topic gid position =>
      obtain ⟨rfl, rfl, hgroup⟩ := hplace
      cases second with
      | group topic gid index =>
          obtain ⟨rfl, rfl, -⟩ := hotherPlace
          have hnodup : ((hub.subscription other.topic).group other.group).Nodup := by
            rw [(hrepresents.subscription other.topic).group]
            exact (nodup_members hrepresents.nodup _ _).of_map _
          have hlength := (List.getElem?_eq_some_iff.mp hsecond).1
          rw [(List.getElem?_inj hlength hnodup).mp (hsecond.trans hfirst.symm)]
      | universal topic id => exact absurd hotherPlace.2.2 hgroup
  | universal topic id =>
      obtain ⟨rfl, rfl, hgroup⟩ := hplace
      cases second with
      | group topic gid index => exact absurd hgroup hotherPlace.2.2
      | universal topic id =>
          obtain ⟨rfl, rfl, -⟩ := hotherPlace
          rfl

theorem Represents.id_mem_iff_listedOnce (hrepresents : Represents hub registered)
    (id : String) : id ∈ hub.byID ↔ ListedOnce hub id := by
  rw [hrepresents.id_mem_iff]
  constructor
  · rintro ⟨consumer, hmem, rfl⟩
    obtain ⟨place, hentry⟩ := hrepresents.exists_place hmem
    exact ⟨place, consumer, hentry, rfl, (hrepresents.of_entryAt hentry).2,
      fun _ _ hother hid => hrepresents.place_unique hentry hother hid⟩
  · rintro ⟨place, consumer, hentry, hid, -⟩
    exact ⟨consumer, (hrepresents.of_entryAt hentry).1, hid⟩

end Places

/-! ## What the hub reports -/

section Reports

variable {hub : Hub} {registered : List ConsumerEntry}

theorem Represents.topic_mem_iff (hrepresents : Represents hub registered)
    {topic : String} :
    topic ∈ hub.topics ↔ ∃ consumer ∈ registered, consumer.topic = topic := by
  rw [Std.ExtTreeMap.mem_iff_isSome_getElem?]
  cases hsub : hub.topics[topic]? with
  | none =>
      have hnone := hrepresents.topics.absent topic hsub
      simpa using hnone
  | some sub =>
      obtain ⟨hholds, hnonempty⟩ := hrepresents.topics.present topic sub hsub
      rw [← Bool.not_eq_true, hholds.isEmpty_iff] at hnonempty
      push Not at hnonempty
      simpa using hnonempty

theorem Represents.mem_activeTopics_iff (hrepresents : Represents hub registered)
    (order : MapOrder) {topic : String} :
    topic ∈ hub.activeTopics order ↔
      ∃ consumer ∈ registered, consumer.topic = topic := by
  rw [Hub.activeTopics, (order.perm _).mem_iff, Std.ExtTreeMap.mem_keys,
    hrepresents.topic_mem_iff]

theorem Represents.hasConsumers_iff (hrepresents : Represents hub registered) :
    hub.hasConsumers = true ↔ registered ≠ [] := by
  rw [Hub.hasConsumers, Bool.not_eq_true', ← Bool.not_eq_true, Std.ExtTreeMap.isEmpty_iff]
  apply not_congr
  constructor
  · intro hempty
    rw [List.eq_nil_iff_forall_not_mem]
    intro consumer hmem
    have hentry := (hrepresents.byID consumer.id consumer).mpr ⟨hmem, rfl⟩
    simp [hempty] at hentry
  · rintro rfl
    apply Std.ExtTreeMap.ext_getElem?
    intro id
    ext consumer
    simp [hrepresents.byID]

/-- `GroupsForTopic`. -/
def groupsForTopic (order : MapOrder) (hub : Hub) (topic : String) : List String :=
  match hub.topics[topic]? with
  | none => []
  | some sub =>
      (order.arrange sub.groups.keys).filter fun gid => 0 < (sub.group gid).length

theorem Represents.mem_groupsForTopic_iff (hrepresents : Represents hub registered)
    (order : MapOrder) {topic gid : String} :
    gid ∈ groupsForTopic order hub topic ↔ members registered topic gid ≠ [] := by
  rw [groupsForTopic]
  cases hsub : hub.topics[topic]? with
  | none =>
      have hholds := holds_newTopicSubscription (hrepresents.topics.absent topic hsub)
      rw [← hholds.group]
      simp [newTopicSubscription, TopicSubscription.group]
  | some sub =>
      obtain ⟨hholds, -⟩ := hrepresents.topics.present topic sub hsub
      simp only [List.mem_filter, (order.perm _).mem_iff, Std.ExtTreeMap.mem_keys,
        Std.ExtTreeMap.mem_iff_isSome_getElem?, hholds.groups, hholds.group,
        Option.isSome_iff_ne_none, Ne, kept_eq_none_iff, decide_eq_true_eq,
        List.length_pos_iff, and_self]

end Reports

/-- Along every run the two indexes agree: an id is known exactly when one entry
with it is listed, where it belongs, nothing empty is kept, and the topics and
the presence of consumers are reported as they are. -/
theorem hub_indexes_agree {actions : List Action} {hub : Hub}
    (hrun : run Registry.step newHub actions = some hub) :
    (∀ id, id ∈ hub.byID ↔ ListedOnce hub id) ∧
    (∀ (id : String) (consumer : ConsumerEntry), hub.byID[id]? = some consumer ↔
      consumer.id = id ∧ ∃ place, entryAt hub place = some consumer) ∧
    (∀ (topic : String) (sub : TopicSubscription), hub.topics[topic]? = some sub →
      sub.isEmpty = false ∧
      ∀ (gid : String) (group : List ConsumerEntry), sub.groups[gid]? = some group →
        group ≠ []) ∧
    ∀ order, (hub.activeTopics order).Nodup ∧
      (∀ topic, topic ∈ hub.activeTopics order ↔
        ∃ (id : String) (consumer : ConsumerEntry),
          hub.byID[id]? = some consumer ∧ consumer.topic = topic) ∧
      (hub.hasConsumers = true ↔ hub.activeTopics order ≠ []) := by
  obtain ⟨registered, hrepresents⟩ := sound_of_run hrun
  refine ⟨hrepresents.id_mem_iff_listedOnce, ?_, ?_, ?_⟩
  · intro id consumer
    rw [hrepresents.byID]
    constructor
    · rintro ⟨hmem, hid⟩
      exact ⟨hid, hrepresents.exists_place hmem⟩
    · rintro ⟨hid, place, hentry⟩
      exact ⟨(hrepresents.of_entryAt hentry).1, hid⟩
  · intro topic sub hsub
    obtain ⟨hholds, hnonempty⟩ := hrepresents.topics.present topic sub hsub
    refine ⟨hnonempty, ?_⟩
    rintro gid group hgroup rfl
    rw [hholds.groups] at hgroup
    have hmembers := getD_kept (members registered topic gid)
    rw [hgroup] at hmembers
    rw [← hmembers] at hgroup
    cases hgroup
  · intro order
    refine ⟨nodup_arrange_keys order hub.topics, ?_, ?_⟩
    · intro topic
      rw [hrepresents.mem_activeTopics_iff]
      constructor
      · rintro ⟨consumer, hmem, htopic⟩
        exact ⟨consumer.id, consumer, (hrepresents.byID _ _).mpr ⟨hmem, rfl⟩, htopic⟩
      · rintro ⟨id, consumer, hentry, htopic⟩
        exact ⟨consumer, ((hrepresents.byID id consumer).mp hentry).1, htopic⟩
    · rw [hrepresents.hasConsumers_iff]
      constructor
      · intro hsome
        obtain ⟨consumer, hmem⟩ := List.exists_mem_of_ne_nil _ hsome
        exact List.ne_nil_of_mem
          ((hrepresents.mem_activeTopics_iff order).mpr ⟨consumer, hmem, rfl⟩)
      · intro hsome
        obtain ⟨topic, htopic⟩ := List.exists_mem_of_ne_nil _ hsome
        obtain ⟨consumer, hmem, -⟩ := (hrepresents.mem_activeTopics_iff order).mp htopic
        exact List.ne_nil_of_mem hmem

/-- A group consumer leaves and a universal one stays. -/
theorem hub_indexes_agree_oneLeft :
    ∃ hub, run Registry.step newHub
        [.register ⟨"c1", "orders", "billing"⟩, .register ⟨"c2", "orders", ""⟩,
          .unregister "c1"] = some hub ∧
      ListedOnce hub "c2" ∧ ¬ ListedOnce hub "c1" := by
  have hruns : ∃ hub, run Registry.step newHub
      [.register ⟨"c1", "orders", "billing"⟩, .register ⟨"c2", "orders", ""⟩,
        .unregister "c1"] = some hub ∧ ("c2" ∈ hub.byID ∧ "c1" ∉ hub.byID) := by
    apply exists_finish_of_any
    decide +kernel
  obtain ⟨hub, hrun, hstays, hleaves⟩ := hruns
  obtain ⟨hlisted, -⟩ := hub_indexes_agree hrun
  exact ⟨hub, hrun, (hlisted "c2").mp hstays, fun honce => hleaves ((hlisted "c1").mpr honce)⟩

/-- A group is reported exactly when a registered consumer belongs to it. -/
theorem mem_groupsForTopic_iff {actions : List Action} {hub : Hub}
    (hrun : run Registry.step newHub actions = some hub) (order : MapOrder)
    {topic gid : String} :
    gid ∈ groupsForTopic order hub topic ↔ gid ≠ "" ∧
      ∃ (id : String) (consumer : ConsumerEntry), hub.byID[id]? = some consumer ∧
        consumer.topic = topic ∧ consumer.group = gid := by
  obtain ⟨registered, hrepresents⟩ := sound_of_run hrun
  rw [hrepresents.mem_groupsForTopic_iff]
  constructor
  · intro hsome
    obtain ⟨consumer, hconsumer⟩ := List.exists_mem_of_ne_nil _ hsome
    obtain ⟨hmem, htopic, hgroup, hne⟩ := mem_members_iff.mp hconsumer
    exact ⟨hne, consumer.id, consumer, (hrepresents.byID _ _).mpr ⟨hmem, rfl⟩, htopic,
      hgroup⟩
  · rintro ⟨hne, id, consumer, hentry, htopic, hgroup⟩
    have hmem := ((hrepresents.byID id consumer).mp hentry).1
    exact List.ne_nil_of_mem (mem_members_iff.mpr ⟨hmem, htopic, hgroup, hne⟩)

end FutureQ.Registry
