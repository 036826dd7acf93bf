import FutureQ.Broker.Rounds

/-!
# Delivery to every group

A dispatch fans a message out to every group and every universal consumer of its
topic, but the broker keeps one record of the message: the first successful
acknowledgement, from whoever it comes, queues the key for deletion.  A message
is removed only after all its subscribers have acknowledged it as long as no
successful acknowledgement of a live message comes while another subscriber that is
entitled to it still waits.
-/

namespace FutureQ.AtLeastOnce

open FutureQ.ByteOrder
open FutureQ.GoRuntime
open FutureQ.OrderedStore
open FutureQ.Transition
open FutureQ.Storage
open FutureQ.Keys
open FutureQ.Repository
open FutureQ.StateMachine
open FutureQ.DueScan
open FutureQ.Consumers
open FutureQ.Dispatch
open FutureQ.Rounds

variable {Index : Type}

/-! ## What the log says about a message -/

/-- The subscribers that were registered on the topic of the message at one of
its dispatches and have been registered ever since. -/
def entitled (key : Bytes) : List Event → List Subscriber
  | [] => []
  | .dispatched other registered :: earlier =>
      if other = key then registered ++ entitled key earlier
      else entitled key earlier
  | .left gone :: earlier => (entitled key earlier).filter fun unit => unit ≠ gone
  | .sent _ _ :: earlier => entitled key earlier
  | .acked _ _ _ :: earlier => entitled key earlier
  | .removed _ _ :: earlier => entitled key earlier
  | .reported _ :: earlier => entitled key earlier

/-- The subscribers of which a consumer was sent the message and acknowledged
it. -/
def acknowledged (key : Bytes) : List Event → List Subscriber
  | [] => []
  | .acked consumer other success :: earlier =>
      if other = key ∧ success = true ∧ .sent consumer key ∈ earlier then
        subscriber consumer :: acknowledged key earlier
      else acknowledged key earlier
  | .dispatched _ _ :: earlier => acknowledged key earlier
  | .left _ :: earlier => acknowledged key earlier
  | .sent _ _ :: earlier => acknowledged key earlier
  | .removed _ _ :: earlier => acknowledged key earlier
  | .reported _ :: earlier => acknowledged key earlier

/-- Everybody entitled to the message has acknowledged it. -/
def Settled (key : Bytes) (log : List Event) : Prop :=
  ∀ unit ∈ entitled key log, unit ∈ acknowledged key log

instance (key : Bytes) (log : List Event) : Decidable (Settled key log) :=
  inferInstanceAs (Decidable (∀ unit ∈ _, unit ∈ _))

/-- No message was removed before it expired and before everybody entitled to it
had acknowledged it. -/
def Delivered : List Event → Prop
  | [] => True
  | .removed key expired :: earlier =>
      (expired = false → Settled key earlier) ∧ Delivered earlier
  | .dispatched _ _ :: earlier => Delivered earlier
  | .sent _ _ :: earlier => Delivered earlier
  | .acked _ _ _ :: earlier => Delivered earlier
  | .left _ :: earlier => Delivered earlier
  | .reported _ :: earlier => Delivered earlier

def decideDelivered : (log : List Event) → Decidable (Delivered log)
  | [] => isTrue trivial
  | .removed _ _ :: earlier =>
      have := decideDelivered earlier
      inferInstanceAs (Decidable (_ ∧ _))
  | .dispatched _ _ :: earlier => decideDelivered earlier
  | .sent _ _ :: earlier => decideDelivered earlier
  | .acked _ _ _ :: earlier => decideDelivered earlier
  | .left _ :: earlier => decideDelivered earlier
  | .reported _ :: earlier => decideDelivered earlier

instance (log : List Event) : Decidable (Delivered log) := decideDelivered log

theorem Settled.mono {key : Bytes} {before after : List Event}
    (hsettled : Settled key before)
    (hentitled : ∀ unit ∈ entitled key after, unit ∈ entitled key before)
    (hacknowledged : ∀ unit ∈ acknowledged key before, unit ∈ acknowledged key after) :
    Settled key after :=
  fun unit hunit => hacknowledged unit (hsettled unit (hentitled unit hunit))

/-- Events that neither give nor take a claim. -/
def Silent : Event → Prop
  | .sent _ _ => True
  | .removed _ _ => True
  | _ => False

/-- What each silent event leaves alone, all of them leave alone. -/
theorem reading_silent {α : Type} {reading : List Event → α}
    (hsent : ∀ consumer key log, reading (.sent consumer key :: log) = reading log)
    (hremoved : ∀ key expired log, reading (.removed key expired :: log) = reading log)
    {events : List Event} (hsilent : ∀ event ∈ events, Silent event)
    (log : List Event) : reading (events ++ log) = reading log := by
  induction events with
  | nil => rfl
  | cons event events ih =>
      obtain ⟨hevent, hrest⟩ := List.forall_mem_cons.mp hsilent
      rw [← ih hrest]
      cases event with
      | sent consumer key => exact hsent consumer key _
      | removed key expired => exact hremoved key expired _
      | _ => cases hevent

theorem entitled_silent {events : List Event} (hsilent : ∀ event ∈ events, Silent event)
    (key : Bytes) (log : List Event) :
    entitled key (events ++ log) = entitled key log :=
  reading_silent (fun _ _ _ => rfl) (fun _ _ _ => rfl) hsilent log

theorem acknowledged_silent {events : List Event}
    (hsilent : ∀ event ∈ events, Silent event) (key : Bytes) (log : List Event) :
    acknowledged key (events ++ log) = acknowledged key log :=
  reading_silent (fun _ _ _ => rfl) (fun _ _ _ => rfl) hsilent log

theorem settled_silent_iff {events : List Event}
    (hsilent : ∀ event ∈ events, Silent event) {key : Bytes} {log : List Event} :
    Settled key (events ++ log) ↔ Settled key log := by
  rw [Settled, Settled, entitled_silent hsilent, acknowledged_silent hsilent]

/-- Silent events keep the promise if each removal among them does. -/
theorem Delivered.append {log events : List Event} (hdelivered : Delivered log)
    (hsilent : ∀ event ∈ events, Silent event)
    (hremoved : ∀ key, .removed key false ∈ events → Settled key log) :
    Delivered (events ++ log) := by
  induction events with
  | nil => exact hdelivered
  | cons event events ih =>
      obtain ⟨hevent, hrest⟩ := List.forall_mem_cons.mp hsilent
      have htail : Delivered (events ++ log) :=
        ih hrest fun key hkey => hremoved key (List.mem_cons_of_mem _ hkey)
      cases event with
      | sent consumer key => exact htail
      | removed key expired =>
          refine ⟨?_, htail⟩
          rintro rfl
          exact (settled_silent_iff hrest).mpr (hremoved key List.mem_cons_self)
      | _ => cases hevent

theorem delivered_left (gone : List Subscriber) {log : List Event}
    (hdelivered : Delivered log) : Delivered (gone.map .left ++ log) := by
  induction gone with
  | nil => exact hdelivered
  | cons unit gone ih => exact ih

theorem settled_left (gone : List Subscriber) {key : Bytes} {log : List Event}
    (hsettled : Settled key log) : Settled key (gone.map .left ++ log) := by
  induction gone with
  | nil => exact hsettled
  | cons unit gone ih =>
      refine ih.mono ?_ fun _ hunit => hunit
      intro other hother
      exact (List.mem_filter.mp hother).1

theorem settled_dispatched {key other : Bytes} {registered : List Subscriber}
    {log : List Event} (hsettled : Settled key log)
    (hregistered : other = key → ∀ unit ∈ registered, unit ∈ acknowledged key log) :
    Settled key (.dispatched other registered :: log) := by
  intro unit hunit
  rw [entitled] at hunit
  split_ifs at hunit with hkey
  · rcases List.mem_append.mp hunit with hnew | hbefore
    · exact hregistered hkey unit hnew
    · exact hsettled unit hbefore
  · exact hsettled unit hunit

theorem settled_acked {key : Bytes} {log : List Event} (consumer : ConsumerEntry)
    (other : Bytes) (success : Bool) (hsettled : Settled key log) :
    Settled key (.acked consumer other success :: log) := by
  refine hsettled.mono (fun _ hunit => hunit) ?_
  intro unit hunit
  rw [acknowledged]
  split_ifs
  · exact List.mem_cons_of_mem _ hunit
  · exact hunit

/-- An acknowledgement settles the message when the others have given theirs. -/
theorem settled_acked_self {key : Bytes} {log : List Event} {consumer : ConsumerEntry}
    (hothers : ∀ unit ∈ entitled key log, unit ∈ acknowledged key log ∨
      unit = subscriber consumer ∧ .sent consumer key ∈ log) :
    Settled key (.acked consumer key true :: log) := by
  intro unit hunit
  rw [acknowledged]
  rcases hothers unit hunit with hbefore | ⟨rfl, hsent⟩
  · split_ifs
    · exact List.mem_cons_of_mem _ hbefore
    · exact hbefore
  · rw [if_pos ⟨rfl, rfl, hsent⟩]
    exact List.mem_cons_self

/-! ## When the broker keeps the promise -/

/-- A message that has not expired is stored under the key. -/
def Live (lib : Libraries Index) (db : DB) (nowMs : Int64) (key : Bytes) : Prop :=
  key.length = 24 ∧
    ∃ value ∈ db[key]?, ∃ msg ∈ lib.unmarshal value, ¬ Expired msg nowMs

instance (lib : Libraries Index) (db : DB) (nowMs : Int64) (key : Bytes) :
    Decidable (Live lib db nowMs key) :=
  inferInstanceAs (Decidable (_ ∧ ∃ value ∈ _, ∃ msg ∈ _, ¬ _))

/-- Nothing is stored under the key, and neither the deleter nor the running pass
knows it. -/
def Unused (broker : Broker Index) (key : Bytes) : Prop :=
  broker.sm.db[key]? = none ∧ key ∉ broker.doomed ∧
    ∀ round ∈ broker.round, key ∉ round.rest.map Prod.fst ++ round.expiredKeys

instance (broker : Broker Index) (key : Bytes) : Decidable (Unused broker key) :=
  inferInstanceAs (Decidable (_ ∧ _ ∧ ∀ round ∈ _, _))

/-- A live message is acknowledged by a consumer that was sent it, and last of
all its subscribers. -/
def AcksLast (lib : Libraries Index) (broker : Broker Index)
    (consumer : ConsumerEntry) (key : Bytes) : Prop :=
  Live lib broker.sm.db broker.nowMs key → ∀ unit ∈ entitled key broker.log,
    unit ∈ acknowledged key broker.log ∨
      unit = subscriber consumer ∧ .sent consumer key ∈ broker.log

instance (lib : Libraries Index) (broker : Broker Index) (consumer : ConsumerEntry)
    (key : Bytes) : Decidable (AcksLast lib broker consumer key) :=
  inferInstanceAs (Decidable (_ → ∀ unit ∈ _, _ ∨ _ ∧ _))

/-- A live message that waits for its deletion is dispatched to subscribers that
have acknowledged it already. -/
def RepeatsOnly (lib : Libraries Index) (broker : Broker Index) :
    Hand Index → Prop
  | .checked key msg => key ∈ broker.doomed →
      Live lib broker.sm.db broker.nowMs key →
      ∀ unit ∈ subscribers broker.hub msg.topic, unit ∈ acknowledged key broker.log
  | .idle => True
  | .sent _ => True

instance (lib : Libraries Index) (broker : Broker Index) (hand : Hand Index) :
    Decidable (RepeatsOnly lib broker hand) :=
  match hand with
  | .checked _ _ => inferInstanceAs (Decidable (_ → _ → ∀ unit ∈ _, _))
  | .idle => inferInstanceAs (Decidable True)
  | .sent _ => inferInstanceAs (Decidable True)

/-- Publishes take unused keys, expiry times are representable, live messages are
acknowledged by the last of their subscribers, and those that wait for their
deletion are dispatched to no others. -/
def Careful (lib : Libraries Index) (broker : Broker Index) : Action Index → Prop
  | .publish batch nowMs => ∀ key ∈ written lib broker.sm (.publish batch nowMs),
      key.length = 24 → Unused broker key
  | .apply entry => ∀ key ∈ written lib broker.sm (.apply entry),
      key.length = 24 → Unused broker key
  | .ack consumer deliveryTag success =>
      success = true → AcksLast lib broker consumer deliveryTag
  | .check _ => ∀ round ∈ broker.round, ∀ entry ∈ round.rest.head?,
      ∀ msg ∈ lib.unmarshal entry.2,
        msg.enqueuedAtUnixMs.toInt + msg.ttlMs.toInt < 2 ^ 63
  | .dispatch _ => ∀ round ∈ broker.round, RepeatsOnly lib broker round.hand
  | _ => True

instance (lib : Libraries Index) (broker : Broker Index) (action : Action Index) :
    Decidable (Careful lib broker action) :=
  match action with
  | .publish _ _ => inferInstanceAs (Decidable (∀ key ∈ _, _ → _))
  | .apply _ => inferInstanceAs (Decidable (∀ key ∈ _, _ → _))
  | .ack _ _ _ => inferInstanceAs (Decidable (_ → _))
  | .check _ => inferInstanceAs (Decidable (∀ round ∈ _, ∀ entry ∈ _, ∀ msg ∈ _, _))
  | .dispatch _ => inferInstanceAs (Decidable (∀ round ∈ _, _))
  | .tick _ | .register _ | .unregister _ | .receive _ | .begin _ _ | .track _
  | .scanError | .expire | .finish | .drain | .deleteKeys _ | .reenqueue | .notify
  | .applyLate _ _ => inferInstanceAs (Decidable True)

/-! ## The invariant -/

/-- Whatever the deleter may take away is settled or no longer alive, and so is
what the running pass has found expired. -/
structure Sound (lib : Libraries Index) (broker : Broker Index) : Prop where
  delivered : Delivered broker.log
  doomed : ∀ key ∈ broker.doomed, Live lib broker.sm.db broker.nowMs key →
    Settled key broker.log
  expired : ∀ round ∈ broker.round, ∀ key ∈ round.expiredKeys,
    ¬ Live lib broker.sm.db broker.nowMs key
  snapshot : ∀ round ∈ broker.round, ∀ entry ∈ round.rest, entry.1.length = 24 →
    ∀ value ∈ broker.sm.db[entry.1]?, value = entry.2
  clock : ∀ round ∈ broker.round, round.nowMs ≤ broker.nowMs

theorem sound_start (lib : Libraries Index) (bucketSize : TimeBucketSize)
    (inFlightTimeout : Duration) (nowMs : Int64) :
    Sound lib (Broker.start bucketSize inFlightTimeout nowMs) where
  delivered := trivial
  doomed key hkey := absurd hkey List.not_mem_nil
  expired _ hround := by cases hround
  snapshot _ hround := by cases hround
  clock _ hround := by cases hround

/-- A message that stays alive was alive before. -/
theorem Live.before {lib : Libraries Index} {before after : DB} {nowMs : Int64}
    {key : Bytes} (hlive : Live lib after nowMs key)
    (hkept : after[key]? = before[key]? ∨ after[key]? = none) :
    Live lib before nowMs key := by
  obtain ⟨hlength, value, hvalue, hmsg⟩ := hlive
  rcases hkept with hsame | hgone
  · exact ⟨hlength, value, hsame ▸ hvalue, hmsg⟩
  · rw [hgone] at hvalue
    cases hvalue

section Steps

variable {lib : Libraries Index} {broker : Broker Index}

theorem Sound.tick (hsound : Sound lib broker) {nowMs : Int64}
    (hlater : broker.nowMs ≤ nowMs) : Sound lib { broker with nowMs } := by
  have hbefore : ∀ key, Live lib broker.sm.db nowMs key →
      Live lib broker.sm.db broker.nowMs key := by
    rintro key ⟨hlength, value, hvalue, msg, hmsg, halive⟩
    exact ⟨hlength, value, hvalue, msg, hmsg,
      fun hexpired => halive (hexpired.mono hlater)⟩
  exact ⟨hsound.delivered,
    fun key hkey hlive => hsound.doomed key hkey (hbefore key hlive),
    fun round hround key hkey hlive =>
      hsound.expired round hround key hkey (hbefore key hlive),
    hsound.snapshot,
    fun round hround => Int64.le_trans (hsound.clock round hround) hlater⟩

/-- A write keeps the invariant if it changes nothing that the deleter or the
running pass knows, except by taking it away, and takes away only what is
doomed. -/
theorem Sound.rewrite (hsound : Sound lib broker) {sm : EventStateMachine}
    (hdoomed : ∀ key ∈ broker.doomed, key.length = 24 →
      sm.db[key]? = broker.sm.db[key]? ∨ sm.db[key]? = none)
    (hround : ∀ round ∈ broker.round, ∀ key ∈ round.rest.map Prod.fst ++
      round.expiredKeys, key.length = 24 →
        sm.db[key]? = broker.sm.db[key]? ∨ sm.db[key]? = none)
    (hlost : ∀ key value, key.length = 24 → broker.sm.db[key]? = some value →
      sm.db[key]? ≠ some value → key ∈ broker.doomed) :
    Sound lib (broker.rewrite lib sm) := by
  have hsilent : ∀ event ∈ losses lib broker.nowMs broker.sm.db sm.db,
      Silent event := by
    intro event hevent
    obtain ⟨key, value, msg, -, -, -, -, rfl⟩ := mem_losses hevent
    trivial
  refine ⟨?_, ?_, ?_, ?_, hsound.clock⟩
  · refine hsound.delivered.append hsilent ?_
    intro key hkey
    obtain ⟨other, value, msg, hlength, hvalue, hgone, hmsg, heq⟩ := mem_losses hkey
    obtain ⟨rfl, halive⟩ := Event.removed.inj heq
    exact hsound.doomed key (hlost key value hlength hvalue hgone)
      ⟨hlength, value, hvalue, msg, hmsg, of_decide_eq_false halive.symm⟩
  · intro key hkey hlive
    exact (settled_silent_iff hsilent).mpr (hsound.doomed key hkey
      (hlive.before (hdoomed key hkey hlive.1)))
  · intro round hmem key hkey hlive
    exact hsound.expired round hmem key hkey
      (hlive.before (hround round hmem key (List.mem_append_right _ hkey) hlive.1))
  · intro round hmem entry hentry hlength value hvalue
    have hkey : entry.1 ∈ round.rest.map Prod.fst ++ round.expiredKeys :=
      List.mem_append_left _ (List.mem_map.mpr ⟨entry, hentry, rfl⟩)
    rcases hround round hmem entry.1 hkey hlength with hsame | hnone
    · exact hsound.snapshot round hmem entry hentry hlength value (hsame ▸ hvalue)
    · change sm.db[entry.1]? = some value at hvalue
      rw [hnone] at hvalue
      cases hvalue

theorem Sound.store (hsound : Sound lib broker) {sm : EventStateMachine}
    {keys : List Bytes} (hkept : KeepsBut keys broker.sm.db sm.db)
    (hunused : ∀ key ∈ keys, key.length = 24 → Unused broker key) :
    Sound lib (broker.rewrite lib sm) := by
  apply hsound.rewrite
  · intro key hkey hlength
    exact .inl (hkept key hlength fun hwritten =>
      (hunused key hwritten hlength).2.1 hkey)
  · intro round hmem key hkey hlength
    exact .inl (hkept key hlength fun hwritten =>
      (hunused key hwritten hlength).2.2 round hmem hkey)
  · intro key value hlength hvalue hgone
    have hwritten : key ∈ keys := by
      by_contra hnot
      exact hgone ((hkept key hlength hnot).trans hvalue)
    rw [(hunused key hwritten hlength).1] at hvalue
    cases hvalue

theorem Sound.requeue (hsound : Sound lib broker) {queue : RetryQueue.Queue Bytes}
    {late : List (List Bytes)} (dispatcher : Dispatcher)
    (hdoomed : ∀ key ∈ queue.waiting ++ late.flatten, key ∈ broker.doomed) :
    Sound lib { broker with queue, late, dispatcher } :=
  ⟨hsound.delivered, fun key hkey => hsound.doomed key (hdoomed key hkey),
    hsound.expired, hsound.snapshot, hsound.clock⟩

theorem Sound.mark (hsound : Sound lib broker) {marked : Bytes}
    (hdead : ¬ Live lib broker.sm.db broker.nowMs marked) :
    Sound lib { broker with queue := { broker.queue with
      pending := broker.queue.pending ++ [marked] } } := by
  refine ⟨hsound.delivered, ?_, hsound.expired, hsound.snapshot, hsound.clock⟩
  intro key hkey hlive
  rcases mem_doomed_mark hkey with rfl | hbefore
  · exact absurd hlive hdead
  · exact hsound.doomed key hbefore hlive

theorem Sound.delete (hsound : Sound lib broker) {sm : EventStateMachine}
    {keys : List Bytes} (hdeletes : Deletes keys broker.sm.db sm.db)
    (hdoomed : ∀ key ∈ keys, key ∈ broker.doomed) :
    Sound lib (broker.rewrite lib sm) := by
  have hkept : ∀ key : Bytes, key.length = 24 →
      sm.db[key]? = broker.sm.db[key]? ∨ sm.db[key]? = none := by
    intro key hlength
    by_cases hkey : key ∈ keys
    · exact .inr (hdeletes.gone key hkey hlength)
    · exact .inl (hdeletes.kept key hlength hkey)
  apply hsound.rewrite
  · exact fun key _ hlength => hkept key hlength
  · exact fun _ _ key _ hlength => hkept key hlength
  · intro key value hlength hvalue hgone
    apply hdoomed
    by_contra hnot
    exact hgone ((hdeletes.kept key hlength hnot).trans hvalue)

theorem Sound.ack (hsound : Sound lib broker) (hub : Hub) {consumer : ConsumerEntry}
    {deliveryTag : Bytes} (hlast : AcksLast lib broker consumer deliveryTag) :
    Sound lib { broker with
      hub
      queue := { broker.queue with pending := broker.queue.pending ++ [deliveryTag] }
      log := .acked consumer deliveryTag true :: broker.log } := by
  refine ⟨hsound.delivered, ?_, hsound.expired, hsound.snapshot, hsound.clock⟩
  intro key hkey hlive
  rcases mem_doomed_mark hkey with rfl | hbefore
  · exact settled_acked_self (hlast hlive)
  · exact settled_acked _ _ _ (hsound.doomed key hbefore hlive)

theorem Sound.dispatch (hsound : Sound lib broker) {round : Round Index}
    (hround : broker.round = some round) {key : Bytes} {msg : StoredMessage Index}
    (hrepeats : RepeatsOnly lib broker (.checked key msg)) (order : DispatchOrder) :
    Sound lib (broker.dispatch round order key msg) := by
  have hsilent : ∀ event ∈ (broker.hub.dispatchToTopic order round.topic
      (queueMessage key msg) key).receivers.reverse.map (Event.sent · key),
      Silent event := by
    intro event hevent
    obtain ⟨receiver, -, rfl⟩ := List.mem_map.mp hevent
    trivial
  have hsnapshot := hsound.snapshot round hround
  have hexpired := hsound.expired round hround
  have hclock := hsound.clock round hround
  refine ⟨?_, ?_, ?_, ?_, ?_⟩
  · have hbefore : Delivered
        (.dispatched key (subscribers broker.hub msg.topic) :: broker.log) :=
      hsound.delivered
    refine hbefore.append hsilent ?_
    intro other hother
    simp at hother
  · intro other hother hlive
    rw [Broker.dispatch, settled_silent_iff hsilent]
    apply settled_dispatched (hsound.doomed other hother hlive)
    rintro rfl
    exact hrepeats hother hlive
  · rintro _ ⟨⟩
    exact hexpired
  · rintro _ ⟨⟩
    exact hsnapshot
  · rintro _ ⟨⟩
    exact hclock

/-- Going on with a pass keeps the invariant if the pass learns nothing new. -/
theorem Sound.proceed (hsound : Sound lib broker) {round : Round Index}
    (hround : broker.round = some round) (dispatcher : Dispatcher)
    {next : Round Index} (hnow : next.nowMs = round.nowMs)
    (hrest : ∀ entry ∈ next.rest, entry ∈ round.rest)
    (hexpired : ∀ key ∈ next.expiredKeys, key ∈ round.expiredKeys ∨
      ¬ Live lib broker.sm.db broker.nowMs key) :
    Sound lib { broker with dispatcher, round := some next } := by
  refine ⟨hsound.delivered, hsound.doomed, ?_, ?_, ?_⟩
  · rintro _ ⟨⟩ key hkey
    rcases hexpired key hkey with hbefore | hdead
    · exact hsound.expired round hround key hbefore
    · exact hdead
  · rintro _ ⟨⟩ entry hentry
    exact hsound.snapshot round hround entry (hrest entry hentry)
  · rintro _ ⟨⟩
    rw [hnow]
    exact hsound.clock round hround

/-- What a pass finds expired is not alive any more. -/
theorem Sound.not_live (hsound : Sound lib broker) {round : Round Index}
    (hround : broker.round = some round) {key value : Bytes}
    (hentry : (key, value) ∈ round.rest) {msg : StoredMessage Index}
    (hdecodes : lib.unmarshal value = some msg)
    (hexpired : isExpired msg round.nowMs = true)
    (hbound : msg.enqueuedAtUnixMs.toInt + msg.ttlMs.toInt < 2 ^ 63) :
    ¬ Live lib broker.sm.db broker.nowMs key := by
  rintro ⟨hlength, stored, hstored, other, hother, halive⟩
  have hsame := hsound.snapshot round hround (key, value) hentry hlength stored hstored
  subst hsame
  rw [hdecodes] at hother
  cases hother
  exact halive ((expired_of_isExpired hexpired hbound).mono
    (hsound.clock round hround))

theorem Sound.step {action : Action Index} {next : Broker Index}
    (hsound : Sound lib broker) (hcareful : Careful lib broker action)
    (heffect : Effect lib broker action next) : Sound lib next := by
  cases heffect with
  | tick nowMs hlater => exact hsound.tick hlater
  | publish batch nowMs sm hkept => exact hsound.store hkept hcareful
  | apply entry sm hkept => exact hsound.store hkept hcareful
  | register consumer =>
      exact ⟨hsound.delivered, hsound.doomed, hsound.expired, hsound.snapshot,
        hsound.clock⟩
  | unregister id =>
      exact ⟨delivered_left _ hsound.delivered,
        fun key hkey hlive => settled_left _ (hsound.doomed key hkey hlive),
        hsound.expired, hsound.snapshot, hsound.clock⟩
  | receive id =>
      exact ⟨hsound.delivered, hsound.doomed, hsound.expired, hsound.snapshot,
        hsound.clock⟩
  | nack consumer deliveryTag =>
      exact ⟨hsound.delivered,
        fun key hkey hlive => settled_acked _ _ _ (hsound.doomed key hkey hlive),
        hsound.expired, hsound.snapshot, hsound.clock⟩
  | ack consumer deliveryTag => exact hsound.ack _ (hcareful rfl)
  | begin topic nowMs hreached =>
      refine ⟨hsound.delivered, hsound.doomed, ?_, ?_, ?_⟩
      · rintro _ ⟨⟩ key hkey
        exact absurd hkey List.not_mem_nil
      · rintro _ ⟨⟩ entry hentry _ value hvalue
        have hscanned := (mem_scan_iff.mp hentry).1
        rw [hscanned] at hvalue
        exact (Option.some.inj hvalue).symm
      · rintro _ ⟨⟩
        exact hreached
  | skip now round key value rest hround hrest =>
      apply hsound.proceed hround
      · rfl
      · intro entry hentry
        rw [hrest]
        exact List.mem_cons_of_mem _ hentry
      · exact fun key hkey => .inl hkey
  | expired now round key value rest msg hround hrest hdecodes hexpired =>
      apply hsound.proceed hround
      · rfl
      · intro entry hentry
        rw [hrest]
        exact List.mem_cons_of_mem _ hentry
      · intro other hother
        rcases List.mem_append.mp hother with hbefore | hnew
        · exact .inl hbefore
        · rw [List.mem_singleton.mp hnew]
          have hentry : (key, value) ∈ round.rest := by
            rw [hrest]
            exact List.mem_cons_self
          refine .inr (hsound.not_live hround hentry hdecodes hexpired ?_)
          exact hcareful round hround (key, value) (by rw [hrest]; rfl) msg hdecodes
  | deliverable now round key value rest msg hround hrest hdecodes halive =>
      apply hsound.proceed hround
      · rfl
      · intro entry hentry
        rw [hrest]
        exact List.mem_cons_of_mem _ hentry
      · exact fun key hkey => .inl hkey
  | dispatch order round key msg hround hhand =>
      have hrepeats := hcareful round hround
      rw [hhand] at hrepeats
      exact hsound.dispatch hround hrepeats order
  | track now round key hround hhand =>
      exact hsound.proceed hround _ rfl (fun _ hentry => hentry)
        fun key hkey => .inl hkey
  | scanError round hround =>
      exact hsound.proceed hround _ rfl (by simp) fun key hkey => .inl hkey
  | expire round key keys hround hkeys =>
      have hexpired := hsound.expired round hround
      rw [hkeys] at hexpired
      have hmarked := hsound.mark (hexpired key List.mem_cons_self)
      exact hmarked.proceed hround _ rfl (fun _ hentry => hentry) fun other hother =>
        .inr (hexpired other (List.mem_cons_of_mem _ hother))
  | finish =>
      exact ⟨hsound.delivered, hsound.doomed, by rintro _ ⟨⟩, by rintro _ ⟨⟩,
        by rintro _ ⟨⟩⟩
  | requeue action queue hwaiting =>
      exact hsound.requeue _ (mem_doomed_of_waiting hwaiting)
  | delete action keys sm dispatcher queue late hdoomed hdeletes hforgets =>
      have hrewritten := hsound.delete hdeletes fun key hkey =>
        hdoomed key (List.mem_append_right _ hkey)
      exact hrewritten.requeue dispatcher fun key hkey =>
        hdoomed key (List.mem_append_left _ hkey)
  | notify key keys queue hnotifying hwaiting =>
      exact ⟨hsound.delivered,
        fun other hother => hsound.doomed other (mem_doomed_of_waiting hwaiting other hother),
        hsound.expired, hsound.snapshot, hsound.clock⟩

end Steps

/-- In every run that is careful in this way, no message is removed before it
expires and before every group and universal consumer that was registered at a
dispatch of it, and still is, has been sent it and has acknowledged it. -/
theorem removed_only_when_acknowledged (lib : Libraries Index) (backend : Backend)
    (bucketSize : TimeBucketSize) (inFlightTimeout : Duration) (startMs : Int64)
    {actions : List (Action Index)} {broker : Broker Index}
    (hcareful : Meets (step lib backend) (Careful lib)
      (.start bucketSize inFlightTimeout startMs) actions)
    (hrun : run (step lib backend) (.start bucketSize inFlightTimeout startMs)
      actions = some broker) : Delivered broker.log := by
  have hsound : Sound lib broker :=
    run_effects (fun _ _ _ hsound hcareful heffect => hsound.step hcareful heffect)
      (stocked_start _ _ _) (sound_start lib _ _ _) hcareful hrun
  exact hsound.delivered

def billing : ConsumerEntry := ⟨"c1", "orders", "billing"⟩

def shipping : ConsumerEntry := ⟨"c2", "orders", "shipping"⟩

/-- Two groups are sent a message. -/
def sendToBoth : List (Action Bytes) :=
  [.register billing, .register shipping, publishOrder, .begin "orders" 10, .check 0,
    .dispatch .sorted, .track 0, .finish]

/-- One group leaves, and the other one acknowledges the message. -/
theorem removed_only_when_acknowledged_oneLeft :
    ∃ broker, run (step orderLibraries .direct) orderBroker
        (sendToBoth ++ [.unregister "c2", .ack billing orderKey true] ++ flushOnce) =
          some broker ∧
      .removed orderKey false ∈ broker.log ∧ Delivered broker.log := by
  have hcareful : Meets (step orderLibraries .direct) (Careful orderLibraries)
      orderBroker
      (sendToBoth ++ [.unregister "c2", .ack billing orderKey true] ++ flushOnce) := by
    decide +kernel
  have hfinish : ∃ broker, run (step orderLibraries .direct) orderBroker
      (sendToBoth ++ [.unregister "c2", .ack billing orderKey true] ++ flushOnce) =
        some broker ∧ .removed orderKey false ∈ broker.log :=
    exists_finish_of_any (by decide +kernel)
  obtain ⟨broker, hrun, hremoved⟩ := hfinish
  exact ⟨broker, hrun, hremoved,
    removed_only_when_acknowledged _ _ _ _ _ hcareful hrun⟩

/-- The acknowledgement of one group removes the message for both. -/
theorem first_acknowledgement_removes :
    ∃ broker, run (step orderLibraries .direct) orderBroker
        (sendToBoth ++ [.ack billing orderKey true] ++ flushOnce) = some broker ∧
      subscriber shipping ∈ subscribers broker.hub "orders" ∧
      broker.sm.db[orderKey]? = none ∧ ¬ Delivered broker.log :=
  exists_finish_of_any (by decide +kernel)

end FutureQ.AtLeastOnce
