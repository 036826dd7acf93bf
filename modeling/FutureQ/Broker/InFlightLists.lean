import FutureQ.Broker.Fanout

/-!
# In-flight lists while calls overlap

`DispatchToTopic` takes its snapshots under the read lock and then serves one
consumer after the other without it: it asks the strategy, sends into the channel
and, under another lock, appends the tag to the consumer's in-flight list.
`Unregister` removes a consumer from the indexes and then, under the other lock,
its list.  Here any number of these calls overlap with the consumers' own
`RemoveInFlightForConsumer`.  What the lists should hold is kept beside the hub:
the tags that went into a consumer's channel and that it has not taken back.
-/

namespace FutureQ.InFlightLists

open FutureQ.ByteOrder
open FutureQ.OrderedStore
open FutureQ.Transition
open FutureQ.Consumers
open FutureQ.Registry
open FutureQ.Fanout

/-- Where one `DispatchToTopic` stands: between two consumers, before the send to a
consumer, or between that send and the append. -/
inductive Phase where
  | looping
  | picked (gid : String) (consumer : ConsumerEntry)
  | sent (gid : String) (consumer : ConsumerEntry)

/-- A `DispatchToTopic` that has its snapshots, with what it has still to visit. -/
structure Dispatch where
  msg : QueueMessage
  deliveryTag : Bytes
  groups : List (String × List ConsumerEntry)
  universal : List ConsumerEntry
  sentTo : List String
  phase : Phase

/-- The snapshots of the groups and of the universal consumers. -/
def newDispatch (order : DispatchOrder) (sub : TopicSubscription) (msg : QueueMessage)
    (deliveryTag : Bytes) : Dispatch where
  msg
  deliveryTag
  groups := (order.groups.arrange sub.groups.keys).map fun gid => (gid, sub.group gid)
  universal := (order.universal.arrange sub.universal.keys).filterMap fun id =>
    sub.universal[id]?
  sentTo := []
  phase := .looping

/-- The hub with the dispatches in progress and the consumers whose `Unregister`
stands between its two steps.  `seen` are the IDs registered so far, `received` the
tags a consumer got out of its channel, and `outstanding` the tags sent to it that it
has neither acked nor nacked since. -/
structure State where
  hub : Hub
  dispatches : List Dispatch
  unregistering : List String
  seen : List String
  received : String → List Bytes
  outstanding : String → List Bytes

def newState : State := ⟨newHub, [], [], [], fun _ => [], fun _ => []⟩

/-- The first part of `Unregister`, up to the release of the lock. -/
def removeFromIndexes (hub : Hub) (id : String) : Hub :=
  { hub.unregister id with inFlightByConsumer := hub.inFlightByConsumer }

/-- `c.Ch <- msg` of `trySend`. -/
def State.sendTo (state : State) (thread : ℕ) (dispatch : Dispatch) (gid : String)
    (consumer : ConsumerEntry) : State :=
  { state with
    hub := { state.hub with
      channels := state.hub.channels.insert consumer.id
        (state.hub.waiting consumer.id ++ [dispatch.msg]) }
    dispatches := state.dispatches.set thread
      { dispatch with phase := .sent gid consumer }
    outstanding := Function.update state.outstanding consumer.id
      (state.outstanding consumer.id ++ [dispatch.deliveryTag]) }

/-- The rest of `trySend` after a send. -/
def State.record (state : State) (thread : ℕ) (dispatch : Dispatch) (gid : String)
    (consumer : ConsumerEntry) : State :=
  { state with
    hub := { state.hub with
      inFlightByConsumer := state.hub.inFlightByConsumer.insert consumer.id
        (state.hub.held consumer.id ++ [dispatch.deliveryTag]) }
    dispatches := state.dispatches.set thread
      { dispatch with sentTo := dispatch.sentTo ++ [gid], phase := .looping } }

/-- A dispatch makes its next move. -/
def State.advance (state : State) (thread : ℕ) (dispatch : Dispatch) : State :=
  match dispatch.phase with
  | .looping =>
      match dispatch.groups, dispatch.universal with
      | (gid, consumers) :: groups, _ =>
          let phase := match (state.hub.select consumers).1 with
            | none => .looping
            | some selected => .picked gid selected
          { state with
            hub := (state.hub.select consumers).2
            dispatches := state.dispatches.set thread { dispatch with groups, phase } }
      | [], consumer :: universal =>
          { state with
            dispatches := state.dispatches.set thread
              { dispatch with universal, phase := .picked "" consumer } }
      | [], [] => { state with dispatches := state.dispatches.eraseIdx thread }
  | .picked gid consumer =>
      if state.hub.hasRoom consumer then state.sendTo thread dispatch gid consumer
      else
        { state with
          dispatches := state.dispatches.set thread { dispatch with phase := .looping } }
  | .sent gid consumer => state.record thread dispatch gid consumer

inductive Action where
  | register (consumer : ConsumerEntry)
  | removeFromIndexes (id : String)
  | deleteInFlight (id : String)
  | snapshot (order : DispatchOrder) (topic : String) (msg : QueueMessage)
      (deliveryTag : Bytes)
  | advance (thread : ℕ)
  | receive (id : String)
  | removeInFlight (id : String) (tag : Bytes)

/-- `Subscribe` registers a new random ID, and a consumer acks or nacks tags that it
has received. -/
def step (state : State) : Action → Option State
  | .register consumer =>
      if consumer.id ∈ state.seen then none
      else some { state with
        hub := state.hub.register consumer
        seen := state.seen ++ [consumer.id] }
  | .removeFromIndexes id =>
      if id ∈ state.hub.byID then
        some { state with
          hub := removeFromIndexes state.hub id
          unregistering := state.unregistering ++ [id] }
      else none
  | .deleteInFlight id =>
      if id ∈ state.unregistering then
        some { state with
          hub := { state.hub with
            inFlightByConsumer := state.hub.inFlightByConsumer.erase id }
          unregistering := state.unregistering.erase id }
      else none
  | .snapshot order topic msg deliveryTag =>
      some { state with dispatches :=
        state.dispatches ++ match state.hub.topics[topic]? with
          | none => []
          | some sub => [newDispatch order sub msg deliveryTag] }
  | .advance thread => (state.dispatches[thread]?).map (state.advance thread)
  | .receive id =>
      match state.hub.waiting id with
      | [] => none
      | msg :: _ =>
          some { state with
            hub := state.hub.receive id
            received := Function.update state.received id
              (state.received id ++ [msg.deliveryTag]) }
  | .removeInFlight id tag =>
      if tag ∈ state.received id then
        some { state with
          hub := state.hub.removeInFlightForConsumer id tag
          outstanding := Function.update state.outstanding id
            ((state.outstanding id).erase tag) }
      else none

/-- The lists that should be there: none for consumers that are not registered
(unless `Unregister` is about to delete it), and with the outstanding tags for those
that are. -/
structure Tidy (state : State) : Prop where
  registered : ∀ id ∈ state.hub.inFlightByConsumer, id ∉ state.unregistering →
    id ∈ state.hub.byID
  lists : ∀ id ∈ state.hub.byID, (state.hub.held id).Perm (state.outstanding id)

/-! ## What the dispatches have sent and not recorded -/

/-- The tag, if the dispatch stands between the send to this consumer and the
append. -/
def Dispatch.unrecorded (dispatch : Dispatch) (id : String) : List Bytes :=
  match dispatch.phase with
  | .sent _ consumer => if consumer.id = id then [dispatch.deliveryTag] else []
  | _ => []

def unrecorded (dispatches : List Dispatch) (id : String) : List Bytes :=
  dispatches.flatMap fun dispatch => dispatch.unrecorded id

def Phase.consumers : Phase → List ConsumerEntry
  | .looping => []
  | .picked _ consumer => [consumer]
  | .sent _ consumer => [consumer]

/-- The consumers that a dispatch may still serve. -/
def Dispatch.consumers (dispatch : Dispatch) : List ConsumerEntry :=
  dispatch.groups.flatMap Prod.snd ++ dispatch.universal ++ dispatch.phase.consumers

/-- Registered, or with an `Unregister` that has not yet deleted the list. -/
def State.Live (state : State) (id : String) : Prop :=
  id ∈ state.hub.byID ∨ id ∈ state.unregistering

/-- A tag is appended before the consumer's list is deleted, and taken back when it
is in the list or no dispatch is about to append it. -/
def InTime (state : State) : Action → Prop
  | .advance thread => ∀ dispatch ∈ state.dispatches[thread]?,
      match dispatch.phase with
      | .sent _ consumer => state.Live consumer.id
      | _ => True
  | .removeInFlight id tag =>
      tag ∈ state.hub.held id ∨ tag ∉ unrecorded state.dispatches id
  | _ => True

/-! ## The moves of a dispatch -/

theorem Dispatch.unrecorded_of_sent {dispatch : Dispatch} {gid : String}
    {consumer : ConsumerEntry} (hphase : dispatch.phase = .sent gid consumer)
    (id : String) :
    dispatch.unrecorded id =
      if consumer.id = id then [dispatch.deliveryTag] else [] := by
  rw [Dispatch.unrecorded, hphase]

theorem count_unrecorded_set {dispatches : List Dispatch} {thread : ℕ}
    {dispatch : Dispatch} (hthread : dispatches[thread]? = some dispatch)
    (other : Dispatch) (id : String) (tag : Bytes) :
    (unrecorded (dispatches.set thread other) id).count tag +
        (dispatch.unrecorded id).count tag =
      (unrecorded dispatches id).count tag + (other.unrecorded id).count tag := by
  induction dispatches generalizing thread with
  | nil => cases hthread
  | cons head dispatches ih =>
      cases thread with
      | zero =>
          cases hthread
          simp only [unrecorded, List.set_cons_zero, List.flatMap_cons,
            List.count_append]
          omega
      | succ thread =>
          have hrest := ih hthread
          simp only [unrecorded, List.set_cons_succ, List.flatMap_cons,
            List.count_append] at hrest ⊢
          omega

theorem unrecorded_eraseIdx {dispatches : List Dispatch} {thread : ℕ}
    {dispatch : Dispatch} (hthread : dispatches[thread]? = some dispatch) {id : String}
    (hnone : dispatch.unrecorded id = []) :
    unrecorded (dispatches.eraseIdx thread) id = unrecorded dispatches id := by
  induction dispatches generalizing thread with
  | nil => cases hthread
  | cons head dispatches ih =>
      cases thread with
      | zero =>
          cases hthread
          simp [unrecorded, hnone]
      | succ thread =>
          have hrest := ih hthread
          simp only [unrecorded] at hrest
          simp [unrecorded, hrest]

section Advance

variable {state : State} {thread : ℕ} {dispatch : Dispatch}

theorem advance_of_group (hphase : dispatch.phase = .looping)
    {group : String × List ConsumerEntry} {groups : List (String × List ConsumerEntry)}
    (hgroups : dispatch.groups = group :: groups) :
    state.advance thread dispatch =
      { state with
        hub := (state.hub.select group.2).2
        dispatches := state.dispatches.set thread
          { dispatch with
            groups
            phase := match (state.hub.select group.2).1 with
              | none => .looping
              | some selected => .picked group.1 selected } } := by
  rw [State.advance, hphase, hgroups]

theorem advance_of_universal (hphase : dispatch.phase = .looping)
    (hgroups : dispatch.groups = []) {consumer : ConsumerEntry}
    {universal : List ConsumerEntry} (huniversal : dispatch.universal = consumer :: universal) :
    state.advance thread dispatch =
      { state with
        dispatches := state.dispatches.set thread
          { dispatch with universal, phase := .picked "" consumer } } := by
  rw [State.advance, hphase, hgroups, huniversal]

theorem advance_of_done (hphase : dispatch.phase = .looping)
    (hgroups : dispatch.groups = []) (huniversal : dispatch.universal = []) :
    state.advance thread dispatch =
      { state with dispatches := state.dispatches.eraseIdx thread } := by
  rw [State.advance, hphase, hgroups, huniversal]

theorem advance_of_room {gid : String} {consumer : ConsumerEntry}
    (hphase : dispatch.phase = .picked gid consumer) (hroom : state.hub.hasRoom consumer) :
    state.advance thread dispatch = state.sendTo thread dispatch gid consumer := by
  rw [State.advance, hphase]
  exact if_pos hroom

theorem advance_of_full {gid : String} {consumer : ConsumerEntry}
    (hphase : dispatch.phase = .picked gid consumer)
    (hroom : ¬ state.hub.hasRoom consumer) :
    state.advance thread dispatch =
      { state with
        dispatches := state.dispatches.set thread { dispatch with phase := .looping } } := by
  rw [State.advance, hphase]
  exact if_neg hroom

theorem advance_of_sent {gid : String} {consumer : ConsumerEntry}
    (hphase : dispatch.phase = .sent gid consumer) :
    state.advance thread dispatch = state.record thread dispatch gid consumer := by
  rw [State.advance, hphase]

end Advance

/-- A move that touches neither the in-flight lists nor the channels. -/
structure Quiet (state : State) (thread : ℕ) (dispatch : Dispatch) (hub : Hub)
    (dispatches : List Dispatch) : Prop where
  topics : hub.topics = state.hub.topics
  byID : hub.byID = state.hub.byID
  inFlight : hub.inFlightByConsumer = state.hub.inFlightByConsumer
  unrecorded : ∀ id tag, (unrecorded dispatches id).count tag =
    (InFlightLists.unrecorded state.dispatches id).count tag
  consumers : ∀ other ∈ dispatches, other ∈ state.dispatches ∨
    ∀ consumer ∈ other.consumers, consumer ∈ dispatch.consumers

theorem mem_consumers_iff {dispatch : Dispatch} {consumer : ConsumerEntry} :
    consumer ∈ dispatch.consumers ↔ (∃ group ∈ dispatch.groups, consumer ∈ group.2) ∨
      consumer ∈ dispatch.universal ∨ consumer ∈ dispatch.phase.consumers := by
  rw [Dispatch.consumers, List.mem_append, List.mem_append, List.mem_flatMap, or_assoc]

theorem quiet_set {state : State} {thread : ℕ} {dispatch other : Dispatch}
    (hthread : state.dispatches[thread]? = some dispatch)
    (hbefore : ∀ id, dispatch.unrecorded id = []) (hafter : ∀ id, other.unrecorded id = [])
    (hconsumers : ∀ consumer ∈ other.consumers, consumer ∈ dispatch.consumers)
    {hub : Hub} (htopics : hub.topics = state.hub.topics)
    (hbyID : hub.byID = state.hub.byID)
    (hinFlight : hub.inFlightByConsumer = state.hub.inFlightByConsumer) :
    Quiet state thread dispatch hub (state.dispatches.set thread other) := by
  refine ⟨htopics, hbyID, hinFlight, ?_, ?_⟩
  · intro id tag
    have hcount := count_unrecorded_set hthread other id tag
    rw [hbefore, hafter] at hcount
    exact hcount
  · intro third hthird
    rcases List.mem_or_eq_of_mem_set hthird with hold | rfl
    · exact .inl hold
    · exact .inr hconsumers

/-- A dispatch moves quietly, sends, or records what it sent. -/
theorem advance_cases {state : State} {thread : ℕ} {dispatch : Dispatch}
    (hthread : state.dispatches[thread]? = some dispatch) :
    (∃ hub dispatches, Quiet state thread dispatch hub dispatches ∧
      state.advance thread dispatch = { state with hub, dispatches }) ∨
    (∃ gid consumer, dispatch.phase = .picked gid consumer ∧
      state.advance thread dispatch = state.sendTo thread dispatch gid consumer) ∨
    (∃ gid consumer, dispatch.phase = .sent gid consumer ∧
      state.advance thread dispatch = state.record thread dispatch gid consumer) := by
  cases hphase : dispatch.phase with
  | looping =>
      have hbefore : ∀ id, dispatch.unrecorded id = [] := by
        intro id
        rw [Dispatch.unrecorded, hphase]
      left
      cases hgroups : dispatch.groups with
      | cons group groups =>
          refine ⟨_, _, quiet_set hthread hbefore ?_ ?_ ?_ ?_ ?_,
            advance_of_group hphase hgroups⟩
          · intro id
            cases hchoice : (state.hub.select group.2).1 with
            | none => rfl
            | some selected => rfl
          · intro consumer hconsumer
            rw [mem_consumers_iff, hgroups]
            rcases mem_consumers_iff.mp hconsumer with ⟨other, hother, hmem⟩ |
              huniversal | hpicked
            · exact .inl ⟨other, List.mem_cons_of_mem _ hother, hmem⟩
            · exact .inr (.inl huniversal)
            · cases hchoice : (state.hub.select group.2).1 with
              | none => simp [hchoice, Phase.consumers] at hpicked
              | some selected =>
                  simp only [hchoice, Phase.consumers, List.mem_singleton] at hpicked
                  subst hpicked
                  exact .inl ⟨group, List.mem_cons_self, mem_of_select hchoice⟩
          · exact select_topics _ _
          · exact select_byID _ _
          · cases group.2 <;> rfl
      | nil =>
          cases huniversal : dispatch.universal with
          | cons consumer universal =>
              refine ⟨_, _, quiet_set hthread hbefore (fun _ => rfl) ?_ rfl rfl rfl,
                advance_of_universal hphase hgroups huniversal⟩
              intro other hother
              rw [mem_consumers_iff] at hother ⊢
              simpa [hgroups, huniversal, Phase.consumers, hphase, or_comm] using hother
          | nil =>
              refine ⟨_, _, ⟨rfl, rfl, rfl, ?_, ?_⟩,
                advance_of_done hphase hgroups huniversal⟩
              · intro id tag
                rw [unrecorded_eraseIdx hthread (hbefore id)]
              · exact fun other hother => .inl (List.mem_of_mem_eraseIdx hother)
  | picked gid consumer =>
      by_cases hroom : state.hub.hasRoom consumer
      · exact .inr (.inl ⟨gid, consumer, rfl, advance_of_room hphase hroom⟩)
      · refine .inl ⟨_, _, quiet_set hthread ?_ (fun _ => rfl) ?_ rfl rfl rfl,
          advance_of_full hphase hroom⟩
        · intro id
          rw [Dispatch.unrecorded, hphase]
        · intro other hother
          rw [mem_consumers_iff] at hother ⊢
          rcases hother with hgroup | huniversal | hnone
          · exact .inl hgroup
          · exact .inr (.inl huniversal)
          · cases hnone
  | sent gid consumer => exact .inr (.inr ⟨gid, consumer, rfl, advance_of_sent hphase⟩)

/-! ## What a step does -/

inductive Effect (state : State) : Action → State → Prop where
  | register (consumer : ConsumerEntry) (hfresh : consumer.id ∉ state.seen) :
      Effect state (.register consumer) { state with
        hub := state.hub.register consumer
        seen := state.seen ++ [consumer.id] }
  | removeFromIndexes (id : String) (hregistered : id ∈ state.hub.byID) :
      Effect state (.removeFromIndexes id) { state with
        hub := removeFromIndexes state.hub id
        unregistering := state.unregistering ++ [id] }
  | deleteInFlight (id : String) (hunregistering : id ∈ state.unregistering) :
      Effect state (.deleteInFlight id) { state with
        hub := { state.hub with
          inFlightByConsumer := state.hub.inFlightByConsumer.erase id }
        unregistering := state.unregistering.erase id }
  | unknownTopic (order : DispatchOrder) (topic : String) (msg : QueueMessage)
      (deliveryTag : Bytes) : Effect state (.snapshot order topic msg deliveryTag) state
  | snapshot (order : DispatchOrder) (topic : String) (msg : QueueMessage)
      (deliveryTag : Bytes) (sub : TopicSubscription)
      (hsub : state.hub.topics[topic]? = some sub) :
      Effect state (.snapshot order topic msg deliveryTag) { state with
        dispatches := state.dispatches ++ [newDispatch order sub msg deliveryTag] }
  | advance (thread : ℕ) (dispatch : Dispatch)
      (hthread : state.dispatches[thread]? = some dispatch) :
      Effect state (.advance thread) (state.advance thread dispatch)
  | receive (id : String) (received : String → List Bytes) :
      Effect state (.receive id) { state with hub := state.hub.receive id, received }
  | removeInFlight (id : String) (tag : Bytes) :
      Effect state (.removeInFlight id tag) { state with
        hub := state.hub.removeInFlightForConsumer id tag
        outstanding := Function.update state.outstanding id
          ((state.outstanding id).erase tag) }

theorem effect_of_step {state next : State} {action : Action}
    (hstep : step state action = some next) : Effect state action next := by
  cases action with
  | register consumer =>
      simp only [step, Option.ite_none_left_eq_some, Option.some.injEq] at hstep
      obtain ⟨hfresh, rfl⟩ := hstep
      exact .register consumer hfresh
  | removeFromIndexes id =>
      simp only [step, Option.ite_none_right_eq_some, Option.some.injEq] at hstep
      obtain ⟨hregistered, rfl⟩ := hstep
      exact .removeFromIndexes id hregistered
  | deleteInFlight id =>
      simp only [step, Option.ite_none_right_eq_some, Option.some.injEq] at hstep
      obtain ⟨hunregistering, rfl⟩ := hstep
      exact .deleteInFlight id hunregistering
  | snapshot order topic msg deliveryTag =>
      rw [step] at hstep
      cases hsub : state.hub.topics[topic]? with
      | none =>
          simp only [hsub, List.append_nil, Option.some.injEq] at hstep
          exact hstep ▸ .unknownTopic order topic msg deliveryTag
      | some sub =>
          simp only [hsub, Option.some.injEq] at hstep
          exact hstep ▸ .snapshot order topic msg deliveryTag sub hsub
  | advance thread =>
      obtain ⟨dispatch, hthread, rfl⟩ := Option.map_eq_some_iff.mp hstep
      exact .advance thread dispatch hthread
  | receive id =>
      rw [step] at hstep
      cases hwaiting : state.hub.waiting id with
      | nil => simp only [hwaiting, reduceCtorEq] at hstep
      | cons msg rest =>
          simp only [hwaiting, Option.some.injEq] at hstep
          exact hstep ▸ .receive id _
  | removeInFlight id tag =>
      simp only [step, Option.ite_none_right_eq_some, Option.some.injEq] at hstep
      obtain ⟨-, rfl⟩ := hstep
      exact .removeInFlight id tag

/-! ## Who is known -/

/-- The indexes agree, IDs are not used twice, and a dispatch serves nobody who never
registered. -/
structure Tracked (state : State) : Prop where
  sound : Sound state.hub
  seen : ∀ id, state.Live id → id ∈ state.seen
  apart : ∀ id ∈ state.unregistering, id ∉ state.hub.byID
  nodup : state.unregistering.Nodup
  snapshots : ∀ dispatch ∈ state.dispatches, ∀ consumer ∈ dispatch.consumers,
    consumer.id ∈ state.seen
  fresh : ∀ id, id ∉ state.seen → state.outstanding id = []

theorem tracked_newState : Tracked newState := by
  refine ⟨⟨[], represents_newHub⟩, ?_, ?_, List.nodup_nil, ?_, fun _ _ => rfl⟩
  · rintro id (hid | hid)
    · simp [newState, newHub] at hid
    · exact absurd hid List.not_mem_nil
  · intro id hid
    exact absurd hid List.not_mem_nil
  · intro dispatch hdispatch
    exact absurd hdispatch List.not_mem_nil

theorem mem_byID_register {hub : Hub} {consumer : ConsumerEntry} {id : String} :
    id ∈ (hub.register consumer).byID ↔ id = consumer.id ∨ id ∈ hub.byID := by
  rw [Hub.register, Std.ExtTreeMap.mem_insert, Std.LawfulEqCmp.compare_eq_iff_eq,
    eq_comm]

theorem mem_byID_unregister {hub : Hub} (hsound : Sound hub) {id other : String} :
    other ∈ (hub.unregister id).byID ↔ other ∈ hub.byID ∧ other ≠ id := by
  obtain ⟨registered, hrepresents⟩ := hsound
  rw [(hrepresents.unregister id).id_mem_iff, hrepresents.id_mem_iff]
  constructor
  · rintro ⟨consumer, hconsumer, rfl⟩
    obtain ⟨hmem, hne⟩ := mem_without_iff.mp hconsumer
    exact ⟨⟨consumer, hmem, rfl⟩, hne⟩
  · rintro ⟨⟨consumer, hmem, rfl⟩, hne⟩
    exact ⟨consumer, mem_without_iff.mpr ⟨hmem, hne⟩, rfl⟩

/-- A snapshot names registered consumers. -/
theorem mem_byID_of_newDispatch {hub : Hub} (hsound : Sound hub) {topic : String}
    {sub : TopicSubscription} (hsub : hub.topics[topic]? = some sub)
    {order : DispatchOrder} {msg : QueueMessage} {deliveryTag : Bytes}
    {consumer : ConsumerEntry}
    (hconsumer : consumer ∈ (newDispatch order sub msg deliveryTag).consumers) :
    consumer.id ∈ hub.byID := by
  obtain ⟨registered, hrepresents⟩ := hsound
  have hholds := (hrepresents.topics.present topic sub hsub).1
  rw [hrepresents.id_mem_iff]
  refine ⟨consumer, ?_, rfl⟩
  rcases mem_consumers_iff.mp hconsumer with ⟨group, hgroup, hmem⟩ | huniversal | hphase
  · obtain ⟨gid, -, rfl⟩ := List.mem_map.mp hgroup
    rw [hholds.group] at hmem
    exact (mem_members_iff.mp hmem).1
  · obtain ⟨id, -, hentry⟩ := List.mem_filterMap.mp huniversal
    exact ((hholds.universal id consumer).mp hentry).1
  · cases hphase

/-- Only the indexes, the snapshots and the tags of unknown IDs count. -/
theorem Tracked.update {state next : State} (htracked : Tracked state)
    (htopics : next.hub.topics = state.hub.topics)
    (hbyID : next.hub.byID = state.hub.byID)
    (hunregistering : next.unregistering = state.unregistering)
    (hseen : next.seen = state.seen)
    (hsnapshots : ∀ dispatch ∈ next.dispatches, ∀ consumer ∈ dispatch.consumers,
      consumer.id ∈ state.seen)
    (hfresh : ∀ id, id ∉ state.seen → next.outstanding id = []) : Tracked next := by
  refine ⟨htracked.sound.congr htopics hbyID, ?_, ?_, ?_, ?_, ?_⟩
  · intro id hlive
    rw [State.Live, hbyID, hunregistering] at hlive
    rw [hseen]
    exact htracked.seen id hlive
  · rw [hbyID, hunregistering]
    exact htracked.apart
  · rw [hunregistering]
    exact htracked.nodup
  · rw [hseen]
    exact hsnapshots
  · rw [hseen]
    exact hfresh

theorem Tracked.known_set {state : State} (htracked : Tracked state) {thread : ℕ}
    {dispatch other : Dispatch} (hthread : state.dispatches[thread]? = some dispatch)
    (hconsumers : ∀ consumer ∈ other.consumers, consumer ∈ dispatch.consumers) :
    ∀ third ∈ state.dispatches.set thread other, ∀ consumer ∈ third.consumers,
      consumer.id ∈ state.seen := by
  intro third hthird consumer hconsumer
  rcases List.mem_or_eq_of_mem_set hthird with hold | rfl
  · exact htracked.snapshots third hold consumer hconsumer
  · exact htracked.snapshots dispatch (List.mem_of_getElem? hthread) consumer
      (hconsumers consumer hconsumer)

theorem update_eq_nil {state : State} {id other : String} {tags : List Bytes}
    (htracked : Tracked state) (hother : other ∉ state.seen)
    (htags : other = id → tags = []) :
    Function.update state.outstanding id tags other = [] := by
  by_cases hid : other = id
  · rw [hid, Function.update_self, htags hid]
  · rw [Function.update_of_ne hid]
    exact htracked.fresh other hother

theorem Tracked.advance {state : State} (htracked : Tracked state) {thread : ℕ}
    {dispatch : Dispatch} (hthread : state.dispatches[thread]? = some dispatch) :
    Tracked (state.advance thread dispatch) := by
  have hknown := htracked.snapshots dispatch (List.mem_of_getElem? hthread)
  rcases advance_cases hthread with ⟨hub, dispatches, hquiet, heq⟩ |
    ⟨gid, consumer, hphase, heq⟩ | ⟨gid, consumer, hphase, heq⟩
  · rw [heq]
    refine htracked.update hquiet.topics hquiet.byID rfl rfl ?_ htracked.fresh
    intro other hother receiver hreceiver
    rcases hquiet.consumers other hother with hold | hsubset
    · exact htracked.snapshots other hold receiver hreceiver
    · exact hknown receiver (hsubset receiver hreceiver)
  · rw [heq]
    have hconsumer : consumer ∈ dispatch.consumers := by
      simp [mem_consumers_iff, hphase, Phase.consumers]
    refine htracked.update rfl rfl rfl rfl (htracked.known_set hthread ?_) ?_
    · intro receiver hreceiver
      rw [mem_consumers_iff] at hreceiver ⊢
      rw [hphase]
      exact hreceiver
    · intro id hid
      apply update_eq_nil htracked hid
      rintro rfl
      exact absurd (hknown consumer hconsumer) hid
  · rw [heq]
    refine htracked.update rfl rfl rfl rfl (htracked.known_set hthread ?_) htracked.fresh
    intro receiver hreceiver
    rw [mem_consumers_iff] at hreceiver ⊢
    rcases hreceiver with hgroup | huniversal | hnone
    · exact .inl hgroup
    · exact .inr (.inl huniversal)
    · cases hnone

theorem Tracked.register {state : State} (htracked : Tracked state)
    {consumer : ConsumerEntry} (hfresh : consumer.id ∉ state.seen) :
    Tracked { state with
      hub := state.hub.register consumer
      seen := state.seen ++ [consumer.id] } := by
  have hunknown : consumer.id ∉ state.hub.byID := fun hid =>
    hfresh (htracked.seen _ (.inl hid))
  obtain ⟨registered, hrepresents⟩ := htracked.sound
  refine ⟨⟨_, hrepresents.register hunknown⟩, ?_, ?_, htracked.nodup, ?_, ?_⟩
  · rintro id (hid | hid)
    · rcases mem_byID_register.mp hid with rfl | hold
      · exact List.mem_append_right _ List.mem_cons_self
      · exact List.mem_append_left _ (htracked.seen id (.inl hold))
    · exact List.mem_append_left _ (htracked.seen id (.inr hid))
  · intro id hid hregistered
    rcases mem_byID_register.mp hregistered with rfl | hold
    · exact hfresh (htracked.seen _ (.inr hid))
    · exact htracked.apart id hid hold
  · intro dispatch hdispatch receiver hreceiver
    exact List.mem_append_left _
      (htracked.snapshots dispatch hdispatch receiver hreceiver)
  · intro id hid
    exact htracked.fresh id fun hseen => hid (List.mem_append_left _ hseen)

theorem Tracked.removeFromIndexes {state : State} (htracked : Tracked state)
    {id : String} (hregistered : id ∈ state.hub.byID) :
    Tracked { state with
      hub := removeFromIndexes state.hub id
      unregistering := state.unregistering ++ [id] } := by
  obtain ⟨registered, hrepresents⟩ := htracked.sound
  refine ⟨⟨_, (hrepresents.unregister id).congr rfl rfl⟩, ?_, ?_, ?_,
    htracked.snapshots, htracked.fresh⟩
  · rintro other (hother | hother)
    · exact htracked.seen other
        (.inl ((mem_byID_unregister htracked.sound).mp hother).1)
    · rcases List.mem_append.mp hother with hold | hnew
      · exact htracked.seen other (.inr hold)
      · rw [List.mem_singleton.mp hnew]
        exact htracked.seen id (.inl hregistered)
  · intro other hother hstill
    obtain ⟨hmem, hne⟩ := (mem_byID_unregister htracked.sound).mp hstill
    rcases List.mem_append.mp hother with hold | hnew
    · exact htracked.apart other hold hmem
    · exact hne (List.mem_singleton.mp hnew)
  · rw [List.nodup_append]
    refine ⟨htracked.nodup, List.nodup_singleton _, ?_⟩
    rintro other hother third hthird rfl
    rw [List.mem_singleton.mp hthird] at hother
    exact htracked.apart id hother hregistered

theorem Tracked.deleteInFlight {state : State} (htracked : Tracked state) (id : String) :
    Tracked { state with
      hub := { state.hub with
        inFlightByConsumer := state.hub.inFlightByConsumer.erase id }
      unregistering := state.unregistering.erase id } := by
  refine ⟨htracked.sound.congr rfl rfl, ?_, ?_, htracked.nodup.erase id,
    htracked.snapshots, htracked.fresh⟩
  · rintro other (hother | hother)
    · exact htracked.seen other (.inl hother)
    · exact htracked.seen other (.inr (List.mem_of_mem_erase hother))
  · exact fun other hother => htracked.apart other (List.mem_of_mem_erase hother)

theorem Tracked.step {state next : State} {action : Action} (htracked : Tracked state)
    (heffect : Effect state action next) : Tracked next := by
  cases heffect with
  | register consumer hfresh => exact htracked.register hfresh
  | removeFromIndexes id hregistered => exact htracked.removeFromIndexes hregistered
  | deleteInFlight id hunregistering => exact htracked.deleteInFlight id
  | unknownTopic order topic msg deliveryTag => exact htracked
  | snapshot order topic msg deliveryTag sub hsub =>
      refine htracked.update rfl rfl rfl rfl ?_ htracked.fresh
      intro dispatch hdispatch receiver hreceiver
      rcases List.mem_append.mp hdispatch with hold | hnew
      · exact htracked.snapshots dispatch hold receiver hreceiver
      · rw [List.mem_singleton.mp hnew] at hreceiver
        exact htracked.seen _
          (.inl (mem_byID_of_newDispatch htracked.sound hsub hreceiver))
  | advance thread dispatch hthread => exact htracked.advance hthread
  | receive id received =>
      exact htracked.update rfl rfl rfl rfl htracked.snapshots htracked.fresh
  | removeInFlight id tag =>
      refine htracked.update (topics_removeInFlight _ _ _) (byID_removeInFlight _ _ _)
        rfl rfl htracked.snapshots ?_
      intro other hother
      apply update_eq_nil htracked hother
      rintro rfl
      rw [htracked.fresh _ hother]
      rfl

/-! ## The lists -/

/-- Lists belong to live consumers, and a live consumer's list, with what is sent to
it and not yet appended, is what it has outstanding. -/
structure Balanced (state : State) : Prop where
  live : ∀ id ∈ state.hub.inFlightByConsumer, state.Live id
  lists : ∀ id, state.Live id → ∀ tag,
    (state.hub.held id).count tag + (unrecorded state.dispatches id).count tag =
      (state.outstanding id).count tag

theorem balanced_newState : Balanced newState := by
  constructor
  · intro id hid
    simp [newState, newHub] at hid
  · intro id _ tag
    simp [newState, newHub, Hub.held, unrecorded]

theorem unrecorded_eq_nil {state : State} (htracked : Tracked state) {id : String}
    (hid : id ∉ state.seen) : unrecorded state.dispatches id = [] := by
  rw [unrecorded, List.flatMap_eq_nil_iff]
  intro dispatch hdispatch
  rw [Dispatch.unrecorded]
  cases hphase : dispatch.phase with
  | looping => rfl
  | picked gid consumer => rfl
  | sent gid consumer =>
      have hconsumer : consumer ∈ dispatch.consumers := by
        simp [mem_consumers_iff, hphase, Phase.consumers]
      have hseen := htracked.snapshots dispatch hdispatch consumer hconsumer
      apply if_neg
      rintro rfl
      exact hid hseen

theorem held_eq_nil {hub : Hub} {id : String} (hid : id ∉ hub.inFlightByConsumer) :
    hub.held id = [] := by
  rw [Hub.held, Std.ExtTreeMap.getElem?_eq_none hid]
  rfl

theorem held_removeInFlight (hub : Hub) (id other : String) (tag : Bytes) :
    (hub.removeInFlightForConsumer id tag).held other =
      if id = other then (hub.held id).erase tag else hub.held other := by
  rw [Hub.removeInFlightForConsumer]
  by_cases htag : tag ∈ hub.held id
  · rw [if_pos htag, held_insert]
  · rw [if_neg htag, List.erase_of_not_mem htag]
    split_ifs with hid
    · rw [hid]
    · rfl

theorem mem_inFlight_of_removeInFlight {hub : Hub} {id other : String} {tag : Bytes}
    (hother : other ∈ (hub.removeInFlightForConsumer id tag).inFlightByConsumer) :
    other ∈ hub.inFlightByConsumer := by
  rw [Hub.removeInFlightForConsumer] at hother
  split_ifs at hother with htag
  · rw [Std.ExtTreeMap.mem_insert, Std.LawfulEqCmp.compare_eq_iff_eq] at hother
    rcases hother with rfl | hold
    · by_contra hnone
      rw [held_eq_nil hnone] at htag
      exact List.not_mem_nil htag
    · exact hold
  · exact hother

section Balanced

variable {state : State}

theorem Balanced.quiet (hbalanced : Balanced state) {thread : ℕ} {dispatch : Dispatch}
    {hub : Hub} {dispatches : List Dispatch}
    (hquiet : Quiet state thread dispatch hub dispatches) :
    Balanced { state with hub, dispatches } := by
  constructor
  · intro id hid
    rw [State.Live, hquiet.byID]
    exact hbalanced.live id (hquiet.inFlight ▸ hid)
  · intro id hlive tag
    rw [State.Live, hquiet.byID] at hlive
    have hlists := hbalanced.lists id hlive tag
    rw [Hub.held, hquiet.inFlight, hquiet.unrecorded]
    exact hlists

/-- A send makes a tag outstanding that is not yet recorded. -/
theorem Balanced.sendTo (hbalanced : Balanced state) {thread : ℕ} {dispatch : Dispatch}
    (hthread : state.dispatches[thread]? = some dispatch) {gid : String}
    {consumer : ConsumerEntry} (hphase : dispatch.phase = .picked gid consumer) :
    Balanced (state.sendTo thread dispatch gid consumer) := by
  refine ⟨hbalanced.live, ?_⟩
  intro id hlive tag
  have hlists := hbalanced.lists id hlive tag
  have hcount := count_unrecorded_set hthread
    { dispatch with phase := .sent gid consumer } id tag
  have hbefore : dispatch.unrecorded id = [] := by
    rw [Dispatch.unrecorded, hphase]
  have hafter : Dispatch.unrecorded { dispatch with phase := .sent gid consumer } id =
      if consumer.id = id then [dispatch.deliveryTag] else [] :=
    Dispatch.unrecorded_of_sent rfl id
  rw [hbefore, hafter, List.count_nil] at hcount
  change (state.hub.held id).count tag +
    (unrecorded (state.dispatches.set thread _) id).count tag =
      (Function.update state.outstanding consumer.id _ id).count tag
  by_cases hid : consumer.id = id
  · subst hid
    rw [if_pos rfl] at hcount
    rw [Function.update_self, List.count_append]
    omega
  · rw [if_neg hid, List.count_nil] at hcount
    rw [Function.update_of_ne (Ne.symm hid)]
    omega

/-- The append records what the send made outstanding. -/
theorem Balanced.record (hbalanced : Balanced state) {thread : ℕ} {dispatch : Dispatch}
    (hthread : state.dispatches[thread]? = some dispatch) {gid : String}
    {consumer : ConsumerEntry} (hphase : dispatch.phase = .sent gid consumer)
    (hreceiver : state.Live consumer.id) :
    Balanced (state.record thread dispatch gid consumer) := by
  constructor
  · intro id hid
    have hcases := Std.ExtTreeMap.mem_insert.mp hid
    rw [Std.LawfulEqCmp.compare_eq_iff_eq] at hcases
    rcases hcases with rfl | hold
    · exact hreceiver
    · exact hbalanced.live id hold
  · intro id hlive tag
    have hlists := hbalanced.lists id hlive tag
    have hcount := count_unrecorded_set hthread
      { dispatch with sentTo := dispatch.sentTo ++ [gid], phase := .looping } id tag
    have hafter : Dispatch.unrecorded
        { dispatch with sentTo := dispatch.sentTo ++ [gid], phase := .looping } id = [] :=
      rfl
    rw [Dispatch.unrecorded_of_sent hphase, hafter, List.count_nil] at hcount
    have hheld := held_insert state.hub consumer.id id
      (state.hub.held consumer.id ++ [dispatch.deliveryTag])
    change (Hub.held { state.hub with inFlightByConsumer := _ } id).count tag +
      (unrecorded (state.dispatches.set thread _) id).count tag =
        (state.outstanding id).count tag
    rw [hheld]
    by_cases hid : consumer.id = id
    · subst hid
      rw [if_pos rfl] at hcount ⊢
      rw [List.count_append]
      omega
    · rw [if_neg hid] at hcount ⊢
      rw [List.count_nil] at hcount
      omega

theorem Balanced.advance (hbalanced : Balanced state) {thread : ℕ} {dispatch : Dispatch}
    (hthread : state.dispatches[thread]? = some dispatch)
    (hintime : InTime state (.advance thread)) :
    Balanced (state.advance thread dispatch) := by
  rcases advance_cases hthread with ⟨hub, dispatches, hquiet, heq⟩ |
    ⟨gid, consumer, hphase, heq⟩ | ⟨gid, consumer, hphase, heq⟩
  · rw [heq]
    exact hbalanced.quiet hquiet
  · rw [heq]
    exact hbalanced.sendTo hthread hphase
  · have hreceiver := hintime dispatch hthread
    rw [hphase] at hreceiver
    rw [heq]
    exact hbalanced.record hthread hphase hreceiver

theorem Balanced.removeInFlight (hbalanced : Balanced state) {id : String} {tag : Bytes}
    (hintime : InTime state (.removeInFlight id tag)) :
    Balanced { state with
      hub := state.hub.removeInFlightForConsumer id tag
      outstanding := Function.update state.outstanding id
        ((state.outstanding id).erase tag) } := by
  constructor
  · intro other hother
    rw [State.Live, byID_removeInFlight]
    exact hbalanced.live other (mem_inFlight_of_removeInFlight hother)
  · intro other hlive probe
    rw [State.Live, byID_removeInFlight] at hlive
    have hlists := hbalanced.lists other hlive
    change ((state.hub.removeInFlightForConsumer id tag).held other).count probe +
      (unrecorded state.dispatches other).count probe =
        (Function.update state.outstanding id _ other).count probe
    rw [held_removeInFlight]
    by_cases hid : id = other
    · subst hid
      rw [if_pos rfl, Function.update_self, List.count_erase, List.count_erase]
      by_cases hprobe : tag = probe
      · subst hprobe
        have hcount := hlists tag
        rcases hintime with hheld | hnone
        · have hpositive := List.count_pos_iff.mpr hheld
          simp only [beq_self_eq_true, if_true]
          omega
        · rw [List.count_eq_zero_of_not_mem hnone] at hcount ⊢
          rw [← hcount]
          rfl
      · have hcount := hlists probe
        simp only [beq_iff_eq, hprobe, if_false, Nat.sub_zero]
        exact hcount
    · rw [if_neg hid, Function.update_of_ne (Ne.symm hid)]
      exact hlists probe

theorem Balanced.register (hbalanced : Balanced state) (htracked : Tracked state)
    {consumer : ConsumerEntry} (hfresh : consumer.id ∉ state.seen) :
    Balanced { state with
      hub := state.hub.register consumer
      seen := state.seen ++ [consumer.id] } := by
  constructor
  · intro id hid
    exact (hbalanced.live id hid).imp_left fun hold => mem_byID_register.mpr (.inr hold)
  · intro id hlive tag
    by_cases hbefore : state.Live id
    · exact hbalanced.lists id hbefore tag
    · have hid : id = consumer.id := by
        rcases hlive with hnew | hold
        · exact (mem_byID_register.mp hnew).resolve_right fun hold => hbefore (.inl hold)
        · exact absurd (.inr hold) hbefore
      have hheld : state.hub.held id = [] :=
        held_eq_nil fun hlist => hbefore (hbalanced.live id hlist)
      rw [← hid] at hfresh
      have hsent := unrecorded_eq_nil htracked hfresh
      have houtstanding := htracked.fresh id hfresh
      change (state.hub.held id).count tag + (unrecorded state.dispatches id).count tag =
        (state.outstanding id).count tag
      rw [hheld, hsent, houtstanding]
      rfl

theorem Balanced.removeFromIndexes (hbalanced : Balanced state)
    (htracked : Tracked state) {id : String} (hregistered : id ∈ state.hub.byID) :
    Balanced { state with
      hub := removeFromIndexes state.hub id
      unregistering := state.unregistering ++ [id] } := by
  have hmem : ∀ other, other ∈ (state.hub.unregister id).byID ↔
      other ∈ state.hub.byID ∧ other ≠ id := fun other =>
    mem_byID_unregister htracked.sound
  have hlive : ∀ other, State.Live { state with
      hub := InFlightLists.removeFromIndexes state.hub id
      unregistering := state.unregistering ++ [id] } other ↔ state.Live other := by
    intro other
    change other ∈ (state.hub.unregister id).byID ∨ other ∈ state.unregistering ++ [id] ↔ _
    rw [hmem, List.mem_append, List.mem_singleton, State.Live]
    by_cases hother : other = id
    · simp [hother, hregistered]
    · simp [hother]
  constructor
  · exact fun other hother => (hlive other).mpr (hbalanced.live other hother)
  · exact fun other hother => hbalanced.lists other ((hlive other).mp hother)

theorem Balanced.deleteInFlight (hbalanced : Balanced state) (htracked : Tracked state)
    {id : String} (hunregistering : id ∈ state.unregistering) :
    Balanced { state with
      hub := { state.hub with
        inFlightByConsumer := state.hub.inFlightByConsumer.erase id }
      unregistering := state.unregistering.erase id } := by
  constructor
  · intro other hother
    obtain ⟨hne, hold⟩ := Std.ExtTreeMap.mem_erase.mp hother
    have hother : other ≠ id := fun heq => hne (heq ▸ Std.ReflCmp.compare_self)
    exact (hbalanced.live other hold).imp_right
      (List.mem_erase_of_ne hother).mpr
  · intro other hlive tag
    have hother : other ≠ id := by
      rintro rfl
      rcases hlive with hregistered | hagain
      · exact htracked.apart other hunregistering hregistered
      · exact htracked.nodup.not_mem_erase hagain
    have hold : state.Live other := hlive.imp_right List.mem_of_mem_erase
    have hlists := hbalanced.lists other hold tag
    change ((state.hub.inFlightByConsumer.erase id)[other]?.getD []).count tag + _ = _
    rw [getElem?_erase_ne (Ne.symm hother)]
    exact hlists

theorem Balanced.step (hbalanced : Balanced state) (htracked : Tracked state)
    {action : Action} (hintime : InTime state action) {next : State}
    (heffect : Effect state action next) : Balanced next := by
  cases heffect with
  | register consumer hfresh => exact hbalanced.register htracked hfresh
  | removeFromIndexes id hregistered =>
      exact hbalanced.removeFromIndexes htracked hregistered
  | deleteInFlight id hunregistering =>
      exact hbalanced.deleteInFlight htracked hunregistering
  | unknownTopic order topic msg deliveryTag => exact hbalanced
  | snapshot order topic msg deliveryTag sub hsub =>
      refine ⟨hbalanced.live, ?_⟩
      intro id hlive tag
      have hlists := hbalanced.lists id hlive tag
      simp only [unrecorded, List.flatMap_append, List.count_append]
      exact hlists
  | advance thread dispatch hthread => exact hbalanced.advance hthread hintime
  | receive id received => exact ⟨hbalanced.live, hbalanced.lists⟩
  | removeInFlight id tag => exact hbalanced.removeInFlight hintime

end Balanced

structure Kept (state : State) : Prop where
  tracked : Tracked state
  balanced : Balanced state

theorem Kept.step (state : State) (action : Action) (next : State) (hkept : Kept state)
    (hintime : InTime state action) (hstep : step state action = some next) :
    Kept next :=
  ⟨hkept.tracked.step (effect_of_step hstep),
    hkept.balanced.step hkept.tracked hintime (effect_of_step hstep)⟩

/-! ## One dispatch alone -/

/-- Some run leads from one state to the other. -/
def Leads (state finish : State) : Prop :=
  ∃ actions, run step state actions = some finish

theorem Leads.refl (state : State) : Leads state state := ⟨[], rfl⟩

theorem Leads.head {state next finish : State} {action : Action}
    (hstep : step state action = some next) (hleads : Leads next finish) :
    Leads state finish := by
  obtain ⟨actions, hrun⟩ := hleads
  exact ⟨action :: actions, run_cons_eq_some.mpr ⟨next, hstep, hrun⟩⟩

theorem Leads.trans {state middle finish : State} (hfirst : Leads state middle)
    (hsecond : Leads middle finish) : Leads state finish := by
  obtain ⟨first, hfirst⟩ := hfirst
  obtain ⟨second, hsecond⟩ := hsecond
  exact ⟨first ++ second, (run_append_of_run hfirst second).trans hsecond⟩

/-- The two parts of `Unregister`, one after the other. -/
theorem leads_unregister {state : State} {id : String}
    (hregistered : id ∈ state.hub.byID) :
    ∃ finish, Leads state finish ∧ finish.dispatches = state.dispatches ∧
      finish.hub = state.hub.unregister id := by
  let middle : State :=
    { state with
      hub := removeFromIndexes state.hub id
      unregistering := state.unregistering ++ [id] }
  have hindexes : InFlightLists.step state (.removeFromIndexes id) = some middle :=
    if_pos hregistered
  have hunregistering : id ∈ middle.unregistering :=
    List.mem_append_right _ List.mem_cons_self
  have hlist : InFlightLists.step middle (.deleteInFlight id) = some _ :=
    if_pos hunregistering
  refine ⟨_, .head hindexes (.head hlist (.refl _)), rfl, ?_⟩
  obtain ⟨entry, hentry⟩ := Option.isSome_iff_exists.mp
    (Std.ExtTreeMap.isSome_getElem?_iff_mem.mpr hregistered)
  simp only [middle, removeFromIndexes, Hub.unregister, hentry]

/-- The one dispatch in progress is where the loops of `dispatchToTopic` are. -/
structure Mirrors (state : State) (delivery : Delivery) (msg : QueueMessage)
    (deliveryTag : Bytes) (groups : List (String × List ConsumerEntry))
    (universal : List ConsumerEntry) (phase : Phase) : Prop where
  hub : state.hub = delivery.hub
  dispatches : state.dispatches =
    [⟨msg, deliveryTag, groups, universal, delivery.sentTo, phase⟩]

section Mirrors

variable {state : State} {delivery : Delivery} {msg : QueueMessage}
variable {deliveryTag : Bytes} {groups : List (String × List ConsumerEntry)}
variable {universal : List ConsumerEntry}

theorem Mirrors.step {phase : Phase}
    (hmirrors : Mirrors state delivery msg deliveryTag groups universal phase) :
    InFlightLists.step state (.advance 0) =
      some (state.advance 0
        ⟨msg, deliveryTag, groups, universal, delivery.sentTo, phase⟩) := by
  rw [InFlightLists.step, hmirrors.dispatches]
  rfl

theorem Mirrors.send {gid : String} {consumer : ConsumerEntry}
    (hmirrors : Mirrors state delivery msg deliveryTag groups universal
      (.picked gid consumer)) :
    ∃ finish, Leads state finish ∧
      Mirrors finish (delivery.send msg deliveryTag gid consumer) msg deliveryTag
        groups universal .looping := by
  have hstep := hmirrors.step
  rw [Delivery.send, Hub.trySend, ← hmirrors.hub]
  by_cases hroom : state.hub.hasRoom consumer
  · have hlength : (state.hub.waiting consumer.id).length < channelCapacity := hroom
    rw [advance_of_room rfl hroom] at hstep
    rw [if_pos hlength]
    have hsent : Mirrors (state.sendTo 0 ⟨msg, deliveryTag, groups, universal,
        delivery.sentTo, .picked gid consumer⟩ gid consumer)
        { delivery with hub := { state.hub with
          channels := state.hub.channels.insert consumer.id
            (state.hub.waiting consumer.id ++ [msg]) } }
        msg deliveryTag groups universal (.sent gid consumer) := by
      refine ⟨rfl, ?_⟩
      rw [State.sendTo, hmirrors.dispatches]
      rfl
    have hrecord := hsent.step
    rw [advance_of_sent rfl, State.record, hsent.dispatches] at hrecord
    exact ⟨_, .head hstep (.head hrecord (.refl _)), rfl, rfl⟩
  · have hlength : ¬ (state.hub.waiting consumer.id).length < channelCapacity := hroom
    rw [advance_of_full rfl hroom, hmirrors.dispatches] at hstep
    rw [if_neg hlength]
    exact ⟨_, .head hstep (.refl _), rfl, rfl⟩

theorem Mirrors.sendToGroup {sub : TopicSubscription} {gid : String}
    (hmirrors : Mirrors state delivery msg deliveryTag ((gid, sub.group gid) :: groups)
      universal .looping) :
    ∃ finish, Leads state finish ∧
      Mirrors finish (delivery.sendToGroup sub msg deliveryTag gid) msg deliveryTag
        groups universal .looping := by
  have hstep := hmirrors.step
  rw [Delivery.sendToGroup, ← hmirrors.hub]
  rw [advance_of_group rfl rfl, hmirrors.dispatches] at hstep
  rcases hselect : state.hub.select (sub.group gid) with ⟨_ | selected, hub⟩
  · simp only [hselect] at hstep
    exact ⟨_, .head hstep (.refl _), rfl, rfl⟩
  · simp only [hselect] at hstep
    have hpicked : Mirrors ⟨hub, [⟨msg, deliveryTag, groups, universal, delivery.sentTo,
        .picked gid selected⟩], state.unregistering, state.seen, state.received,
        state.outstanding⟩ { delivery with hub } msg deliveryTag groups universal
        (.picked gid selected) := ⟨rfl, rfl⟩
    obtain ⟨finish, hleads, hfinish⟩ := hpicked.send
    exact ⟨finish, .head hstep hleads, hfinish⟩

theorem Mirrors.groupLoop {sub : TopicSubscription} {gids : List String}
    (hmirrors : Mirrors state delivery msg deliveryTag
      (gids.map fun gid => (gid, sub.group gid)) universal .looping) :
    ∃ finish, Leads state finish ∧
      Mirrors finish (gids.foldl (Delivery.sendToGroup sub msg deliveryTag) delivery)
        msg deliveryTag [] universal .looping := by
  induction gids generalizing state delivery with
  | nil => exact ⟨state, .refl state, hmirrors⟩
  | cons gid gids ih =>
      obtain ⟨middle, hfirst, hmiddle⟩ := hmirrors.sendToGroup
      obtain ⟨finish, hrest, hfinish⟩ := ih hmiddle
      exact ⟨finish, hfirst.trans hrest, hfinish⟩

theorem Mirrors.universalLoop {sub : TopicSubscription} {ids : List String}
    (hmirrors : Mirrors state delivery msg deliveryTag []
      (ids.filterMap fun id => sub.universal[id]?) .looping) :
    ∃ finish, Leads state finish ∧
      Mirrors finish (ids.foldl (Delivery.sendToUniversal sub msg deliveryTag) delivery)
        msg deliveryTag [] [] .looping := by
  induction ids generalizing state delivery with
  | nil => exact ⟨state, .refl state, hmirrors⟩
  | cons id ids ih =>
      rw [List.foldl_cons, Delivery.sendToUniversal]
      cases hentry : sub.universal[id]? with
      | none =>
          rw [List.filterMap_cons_none hentry] at hmirrors
          exact ih hmirrors
      | some consumer =>
          rw [List.filterMap_cons_some hentry] at hmirrors
          have hstep := hmirrors.step
          rw [advance_of_universal rfl rfl rfl, hmirrors.dispatches, hmirrors.hub] at hstep
          have hpicked : Mirrors ⟨delivery.hub, [⟨msg, deliveryTag, [],
              ids.filterMap fun id => sub.universal[id]?, delivery.sentTo,
              .picked "" consumer⟩], state.unregistering, state.seen, state.received,
              state.outstanding⟩ delivery msg deliveryTag []
              (ids.filterMap fun id => sub.universal[id]?) (.picked "" consumer) :=
            ⟨rfl, rfl⟩
          obtain ⟨middle, hfirst, hmiddle⟩ := hpicked.send
          obtain ⟨finish, hrest, hfinish⟩ := ih hmiddle
          exact ⟨finish, (Leads.head hstep hfirst).trans hrest, hfinish⟩

/-- A dispatch that nobody interrupts does what `dispatchToTopic` does. -/
theorem leads_dispatchToTopic (hidle : state.dispatches = []) (order : DispatchOrder)
    (topic : String) (msg : QueueMessage) (deliveryTag : Bytes) :
    ∃ finish, Leads state finish ∧ finish.dispatches = [] ∧
      finish.hub = (state.hub.dispatchToTopic order topic msg deliveryTag).hub := by
  rw [Hub.dispatchToTopic]
  cases hsub : state.hub.topics[topic]? with
  | none => exact ⟨state, .refl state, hidle, rfl⟩
  | some sub =>
      have hstep : InFlightLists.step state (.snapshot order topic msg deliveryTag) =
          some { state with dispatches := [newDispatch order sub msg deliveryTag] } := by
        simp only [InFlightLists.step, hidle, hsub, List.nil_append]
      have hstart : Mirrors { state with dispatches := [newDispatch order sub msg deliveryTag] }
          ⟨state.hub, [], []⟩ msg deliveryTag _ _ .looping := ⟨rfl, rfl⟩
      obtain ⟨middle, hgroups, hmiddle⟩ := hstart.groupLoop
      obtain ⟨last, huniversal, hlast⟩ := hmiddle.universalLoop
      have hdone := hlast.step
      rw [advance_of_done rfl rfl rfl, hlast.dispatches] at hdone
      exact ⟨_, .head hstep ((hgroups.trans huniversal).trans
        (.head hdone (.refl _))), rfl, hlast.hub⟩

end Mirrors

/-! ## Runs -/

instance decidableLive (state : State) (id : String) : Decidable (state.Live id) :=
  inferInstanceAs (Decidable (_ ∨ _))

def decideInTime (state : State) : (action : Action) → Decidable (InTime state action)
  | .advance thread =>
      match hthread : state.dispatches[thread]? with
      | none => isTrue (by simp [InTime, hthread])
      | some dispatch =>
          match hphase : dispatch.phase with
          | .sent gid consumer =>
              decidable_of_iff (state.Live consumer.id)
                (by simp [InTime, hthread, hphase])
          | .looping => isTrue (by simp [InTime, hthread, hphase])
          | .picked gid consumer => isTrue (by simp [InTime, hthread, hphase])
  | .removeInFlight _ _ => inferInstanceAs (Decidable (_ ∨ _))
  | .register _ => isTrue trivial
  | .removeFromIndexes _ => isTrue trivial
  | .deleteInFlight _ => isTrue trivial
  | .snapshot _ _ _ _ => isTrue trivial
  | .receive _ => isTrue trivial

instance decidableInTime (state : State) (action : Action) :
    Decidable (InTime state action) :=
  decideInTime state action

/-- In every run in which tags are appended before the consumer's list is deleted and
taken back after they were appended, the lists are tidy whenever no dispatch is in
progress. -/
theorem in_flight_lists_do_not_leak {actions : List Action} {finish : State}
    (hrun : run step newState actions = some finish)
    (hintime : Meets step InTime newState actions) (hidle : finish.dispatches = []) :
    Tidy finish := by
  have hkept := run_invariant Kept.step ⟨tracked_newState, balanced_newState⟩
    hintime hrun
  constructor
  · intro id hid hnot
    exact (hkept.balanced.live id hid).resolve_right hnot
  · intro id hid
    rw [List.perm_iff_count]
    intro tag
    have hlists := hkept.balanced.lists id (.inl hid) tag
    rw [hidle] at hlists
    exact hlists

/-- One message is dispatched, received and acked. -/
def oneAcked : List Action :=
  [.register (billing "c"), .snapshot .sorted "orders" order [7], .advance 0, .advance 0,
    .advance 0, .advance 0, .receive "c", .removeInFlight "c" [7]]

theorem in_flight_lists_do_not_leak_acked :
    ∃ finish, run step newState oneAcked = some finish ∧ Tidy finish := by
  have hidle : ∃ finish, run step newState oneAcked = some finish ∧
      finish.dispatches.isEmpty = true := exists_finish_of_any (by decide +kernel)
  obtain ⟨finish, hrun, hidle⟩ := hidle
  exact ⟨finish, hrun, in_flight_lists_do_not_leak hrun (by decide +kernel)
    (List.isEmpty_iff.mp hidle)⟩

/-- A tag appended after `Unregister` deleted the list leaves a list for ever, and a
tag acked between its send and its append stays in the list. -/
theorem in_flight_lists_leak :
    (∃ finish, run step newState
        [.register (billing "c"), .snapshot .sorted "orders" order [7], .advance 0,
          .removeFromIndexes "c", .deleteInFlight "c", .advance 0, .advance 0,
          .advance 0] = some finish ∧
        (finish.dispatches.isEmpty = true ∧ finish.unregistering = [] ∧
          "c" ∉ finish.hub.byID ∧ finish.hub.inFlightByConsumer["c"]? = some [[7]])) ∧
      ∃ finish, run step newState
        [.register (billing "c"), .snapshot .sorted "orders" order [7], .advance 0,
          .advance 0, .receive "c", .removeInFlight "c" [7], .advance 0, .advance 0] =
        some finish ∧
        (finish.dispatches.isEmpty = true ∧ "c" ∈ finish.hub.byID ∧
          finish.outstanding "c" = [] ∧ finish.hub.held "c" = [[7]]) :=
  ⟨exists_finish_of_any (by decide +kernel), exists_finish_of_any (by decide +kernel)⟩

end FutureQ.InFlightLists
