import FutureQ.Broker.Rounds

/-!
# Deleted messages

A dispatch pass works on the snapshot it took at its start, and it puts a key in
flight only after it has sent it.  A flush that runs meanwhile can delete the
message, report the key and clear its in-flight entry before the pass comes to
it; the pass then sends a message that is gone and leaves an entry behind that no
later scan meets.  A deleted message stays gone when no running pass holds it at
the time of the report.
-/

namespace FutureQ.Deleted

open FutureQ.ByteOrder
open FutureQ.OrderedStore
open FutureQ.Transition
open FutureQ.Storage
open FutureQ.Keys
open FutureQ.Repository
open FutureQ.StateMachine
open FutureQ.DueScan
open FutureQ.Consumers
open FutureQ.Dispatch
open FutureQ.Rounds

variable {Index : Type}

/-- The message was stored and has been taken out of the database. -/
def Removed (key : Bytes) (log : List Event) : Prop :=
  .removed key true ∈ log ∨ .removed key false ∈ log

instance (key : Bytes) (log : List Event) : Decidable (Removed key log) :=
  inferInstanceAs (Decidable (_ ∨ _))

/-- The message was removed, and `OnDelete` has been called for it since. -/
def Finished (key : Bytes) : List Event → Prop
  | [] => False
  | .reported other :: earlier =>
      other = key ∧ Removed key earlier ∨ Finished key earlier
  | .dispatched _ _ :: earlier => Finished key earlier
  | .sent _ _ :: earlier => Finished key earlier
  | .acked _ _ _ :: earlier => Finished key earlier
  | .left _ :: earlier => Finished key earlier
  | .removed _ _ :: earlier => Finished key earlier

def decideFinished (key : Bytes) : (log : List Event) → Decidable (Finished key log)
  | [] => isFalse id
  | .reported _ :: earlier =>
      have := decideFinished key earlier
      inferInstanceAs (Decidable (_ ∧ _ ∨ _))
  | .dispatched _ _ :: earlier => decideFinished key earlier
  | .sent _ _ :: earlier => decideFinished key earlier
  | .acked _ _ _ :: earlier => decideFinished key earlier
  | .left _ :: earlier => decideFinished key earlier
  | .removed _ _ :: earlier => decideFinished key earlier

instance (key : Bytes) (log : List Event) : Decidable (Finished key log) :=
  decideFinished key log

/-- Nobody was sent a message that was finished. -/
def NeverResent : List Event → Prop
  | [] => True
  | .sent _ key :: earlier => ¬ Finished key earlier ∧ NeverResent earlier
  | .dispatched _ _ :: earlier => NeverResent earlier
  | .acked _ _ _ :: earlier => NeverResent earlier
  | .left _ :: earlier => NeverResent earlier
  | .removed _ _ :: earlier => NeverResent earlier
  | .reported _ :: earlier => NeverResent earlier

def decideNeverResent : (log : List Event) → Decidable (NeverResent log)
  | [] => isTrue trivial
  | .sent _ _ :: earlier =>
      have := decideNeverResent earlier
      inferInstanceAs (Decidable (_ ∧ _))
  | .dispatched _ _ :: earlier => decideNeverResent earlier
  | .acked _ _ _ :: earlier => decideNeverResent earlier
  | .left _ :: earlier => decideNeverResent earlier
  | .removed _ _ :: earlier => decideNeverResent earlier
  | .reported _ :: earlier => decideNeverResent earlier

instance (log : List Event) : Decidable (NeverResent log) := decideNeverResent log

/-- Finished messages are never sent again and are not in flight. -/
def StaysGone (broker : Broker Index) : Prop :=
  NeverResent broker.log ∧
    ∀ key, Finished key broker.log → broker.dispatcher.inFlight[key]? = none

/-- The key that the callback of a pass works on. -/
def inHand : Hand Index → Option Bytes
  | .idle => none
  | .checked key _ => some key
  | .sent key => some key

/-- The running pass has the key in hand, or its snapshot still holds a live
message under the key. -/
def Holds (lib : Libraries Index) (round : Round Index) (key : Bytes) : Prop :=
  (∃ entry ∈ round.rest, entry.1 = key ∧
      ∃ msg ∈ lib.unmarshal entry.2, isExpired msg round.nowMs = false) ∨
    inHand round.hand = some key

instance (lib : Libraries Index) (round : Round Index) (key : Bytes) :
    Decidable (Holds lib round key) :=
  inferInstanceAs (Decidable ((∃ entry ∈ _, _ ∧ ∃ msg ∈ _, _) ∨ _))

/-- The key is not stored and has never been the key of a removed message. -/
def Fresh (broker : Broker Index) (key : Bytes) : Prop :=
  broker.sm.db[key]? = none ∧ ¬ Removed key broker.log

instance (broker : Broker Index) (key : Bytes) : Decidable (Fresh broker key) :=
  inferInstanceAs (Decidable (_ ∧ _))

/-- Publishes take fresh keys, and no removed message is reported while the
running pass holds it. -/
def Separate (lib : Libraries Index) (broker : Broker Index) : Action Index → Prop
  | .publish batch nowMs => ∀ key ∈ written lib broker.sm (.publish batch nowMs),
      key.length = 24 → Fresh broker key
  | .apply entry => ∀ key ∈ written lib broker.sm (.apply entry),
      key.length = 24 → Fresh broker key
  | .notify => ∀ key ∈ broker.queue.phase.unreported.head?, Removed key broker.log →
      ∀ round ∈ broker.round, ¬ Holds lib round key
  | _ => True

instance (lib : Libraries Index) (broker : Broker Index) (action : Action Index) :
    Decidable (Separate lib broker action) :=
  match action with
  | .publish _ _ => inferInstanceAs (Decidable (∀ key ∈ _, _ → _))
  | .apply _ => inferInstanceAs (Decidable (∀ key ∈ _, _ → _))
  | .notify => inferInstanceAs (Decidable (∀ key ∈ _, _ → ∀ round ∈ _, _))
  | .tick _ | .register _ | .unregister _ | .receive _ | .ack _ _ _ | .begin _ _
  | .check _ | .dispatch _ | .track _ | .scanError | .expire | .finish | .drain
  | .deleteKeys _ | .reenqueue | .applyLate _ _ => inferInstanceAs (Decidable True)

/-! ## The invariant -/

/-- Removed messages are not stored, and finished ones are neither in flight nor
held by the running pass. -/
structure Sound (lib : Libraries Index) (broker : Broker Index) : Prop where
  neverResent : NeverResent broker.log
  absent : ∀ key, Removed key broker.log →
    key.length = 24 ∧ broker.sm.db[key]? = none
  idle : ∀ key, Finished key broker.log → broker.dispatcher.inFlight[key]? = none
  released : ∀ key, Finished key broker.log → ∀ round ∈ broker.round,
    ¬ Holds lib round key

theorem sound_start (lib : Libraries Index) (bucketSize : TimeBucketSize)
    (inFlightTimeout : Duration) (nowMs : Int64) :
    Sound lib (Broker.start bucketSize inFlightTimeout nowMs) where
  neverResent := trivial
  absent key hremoved := by simp [Removed, Broker.start] at hremoved
  idle key hfinished := hfinished.elim
  released key hfinished := hfinished.elim

theorem removed_of_finished {key : Bytes} {log : List Event}
    (hfinished : Finished key log) : Removed key log := by
  induction log with
  | nil => exact hfinished.elim
  | cons event earlier ih =>
      have hlater : Removed key earlier → Removed key (event :: earlier) :=
        Or.imp (List.mem_cons_of_mem _) (List.mem_cons_of_mem _)
      cases event with
      | reported other => exact hlater (hfinished.elim And.right ih)
      | dispatched other registered => exact hlater (ih hfinished)
      | sent consumer other => exact hlater (ih hfinished)
      | acked consumer other success => exact hlater (ih hfinished)
      | left gone => exact hlater (ih hfinished)
      | removed other expired => exact hlater (ih hfinished)

theorem finished_append_iff {events log : List Event} {key : Bytes}
    (hquiet : ∀ other, .reported other ∉ events) :
    Finished key (events ++ log) ↔ Finished key log := by
  induction events with
  | nil => exact Iff.rfl
  | cons event events ih =>
      have hrest : ∀ other, .reported other ∉ events :=
        fun other hother => hquiet other (List.mem_cons_of_mem _ hother)
      rw [← ih hrest]
      cases event with
      | reported other => exact absurd List.mem_cons_self (hquiet other)
      | _ => exact Iff.rfl

theorem neverResent_append {events log : List Event} (hbefore : NeverResent log)
    (hquiet : ∀ key, .reported key ∉ events)
    (hsent : ∀ consumer key, .sent consumer key ∈ events → ¬ Finished key log) :
    NeverResent (events ++ log) := by
  induction events with
  | nil => exact hbefore
  | cons event events ih =>
      have hrest : ∀ key, .reported key ∉ events :=
        fun key hkey => hquiet key (List.mem_cons_of_mem _ hkey)
      have htail : NeverResent (events ++ log) := ih hrest
        fun consumer key hkey => hsent consumer key (List.mem_cons_of_mem _ hkey)
      cases event with
      | sent consumer key =>
          have hopen : ¬ Finished key (events ++ log) := by
            rw [finished_append_iff hrest]
            exact hsent consumer key List.mem_cons_self
          exact ⟨hopen, htail⟩
      | _ => exact htail

section Steps

variable {lib : Libraries Index} {broker next : Broker Index}

/-- A step that reports nothing keeps the invariant if it sends nothing that is
finished, stores nothing that was removed, and neither tracks nor picks up what
is finished. -/
theorem Sound.of_quiet (hsound : Sound lib broker) (events : List Event)
    (hlog : next.log = events ++ broker.log)
    (hquiet : ∀ key, .reported key ∉ events)
    (hsent : ∀ consumer key, .sent consumer key ∈ events →
      ¬ Finished key broker.log)
    (habsent : ∀ key, Removed key next.log →
      key.length = 24 ∧ next.sm.db[key]? = none)
    (hidle : ∀ key, Finished key broker.log →
      next.dispatcher.inFlight[key]? = none)
    (hreleased : ∀ key, Finished key broker.log → ∀ round ∈ next.round,
      ¬ Holds lib round key) : Sound lib next := by
  have hfinished : ∀ key, Finished key next.log ↔ Finished key broker.log := by
    intro key
    rw [hlog]
    exact finished_append_iff hquiet
  refine ⟨?_, habsent, fun key hkey => hidle key ((hfinished key).mp hkey),
    fun key hkey => hreleased key ((hfinished key).mp hkey)⟩
  rw [hlog]
  exact neverResent_append hsound.neverResent hquiet hsent

/-- A step of the pass that neither writes nor logs anything. -/
theorem Sound.proceed (hsound : Sound lib broker) {round : Round Index}
    (hround : broker.round = some round) {dispatcher : Dispatcher}
    (queue : RetryQueue.Queue Bytes) {after : Round Index}
    (hidle : ∀ key, Finished key broker.log → dispatcher.inFlight[key]? = none)
    (hholds : ∀ key, Holds lib after key → Holds lib round key) :
    Sound lib { broker with dispatcher, queue, round := some after } := by
  refine ⟨hsound.neverResent, hsound.absent, hidle, ?_⟩
  rintro key hkey _ ⟨⟩ hafter
  exact hsound.released key hkey round hround (hholds key hafter)

theorem inFlight_isInFlight {dispatcher : Dispatcher} {key other : Bytes} (now : ℕ)
    (habsent : dispatcher.inFlight[other]? = none) :
    (dispatcher.isInFlight key now).2.inFlight[other]? = none := by
  by_cases hkey : key = other
  · subst hkey
    rw [Dispatcher.isInFlight, habsent]
    exact habsent
  · rw [getElem?_isInFlight_ne hkey]
    exact habsent

theorem Sound.store (hsound : Sound lib broker) {sm : EventStateMachine}
    {keys : List Bytes} (hkept : KeepsBut keys broker.sm.db sm.db)
    (hfresh : ∀ key ∈ keys, key.length = 24 → Fresh broker key) :
    Sound lib (broker.rewrite lib sm) := by
  have hnothing : losses lib broker.nowMs broker.sm.db sm.db = [] := by
    rw [List.eq_nil_iff_forall_not_mem]
    intro event hevent
    obtain ⟨key, value, -, hlength, hvalue, hlost, -, -⟩ := mem_losses hevent
    have hwritten : key ∈ keys := by
      by_contra hnot
      exact hlost ((hkept key hlength hnot).trans hvalue)
    rw [(hfresh key hwritten hlength).1] at hvalue
    cases hvalue
  refine hsound.of_quiet [] ?_ (by simp) (by simp) ?_ hsound.idle hsound.released
  · rw [Broker.rewrite, hnothing]
  · intro key hremoved
    rw [Broker.rewrite, hnothing] at hremoved
    obtain ⟨hlength, habsent⟩ := hsound.absent key hremoved
    refine ⟨hlength, ?_⟩
    have hnot : key ∉ keys :=
      fun hwritten => (hfresh key hwritten hlength).2 hremoved
    exact (hkept key hlength hnot).trans habsent

theorem Sound.delete (hsound : Sound lib broker) {sm : EventStateMachine}
    {keys : List Bytes} (hdeletes : Deletes keys broker.sm.db sm.db)
    {dispatcher : Dispatcher} (queue : RetryQueue.Queue Bytes)
    (late : List (List Bytes))
    (hforgets : ∀ key : Bytes, broker.dispatcher.inFlight[key]? = none →
      dispatcher.inFlight[key]? = none) :
    Sound lib { broker.rewrite lib sm with dispatcher, queue, late } := by
  have hgone : ∀ key : Bytes, key.length = 24 →
      (key ∈ keys ∨ broker.sm.db[key]? = none) → sm.db[key]? = none := by
    intro key hlength hkey
    by_cases hmem : key ∈ keys
    · exact hdeletes.gone key hmem hlength
    · rw [hdeletes.kept key hlength hmem]
      exact hkey.resolve_left hmem
  have hlost : ∀ key expired,
      .removed key expired ∈ losses lib broker.nowMs broker.sm.db sm.db →
        key.length = 24 ∧ sm.db[key]? = none := by
    intro key expired hevent
    obtain ⟨other, value, msg, hlength, hvalue, hlost, -, heq⟩ := mem_losses hevent
    obtain ⟨rfl, -⟩ := Event.removed.inj heq
    refine ⟨hlength, hgone key hlength (.inl ?_)⟩
    by_contra hnot
    exact hlost ((hdeletes.kept key hlength hnot).trans hvalue)
  refine hsound.of_quiet _ rfl ?_ ?_ ?_
    (fun key hkey => hforgets key (hsound.idle key hkey)) hsound.released
  · intro key hevent
    obtain ⟨_, _, _, -, -, -, -, heq⟩ := mem_losses hevent
    cases heq
  · intro consumer key hevent
    obtain ⟨_, _, _, -, -, -, -, heq⟩ := mem_losses hevent
    cases heq
  · intro key hremoved
    have hcases : Removed key (losses lib broker.nowMs broker.sm.db sm.db) ∨
        Removed key broker.log := by
      simp only [Removed, Broker.rewrite, List.mem_append] at hremoved ⊢
      tauto
    rcases hcases with (hevent | hevent) | hbefore
    · exact hlost key true hevent
    · exact hlost key false hevent
    · obtain ⟨hlength, habsent⟩ := hsound.absent key hbefore
      exact ⟨hlength, hgone key hlength (.inr habsent)⟩

theorem Sound.dispatch (hsound : Sound lib broker) {round : Round Index}
    (hround : broker.round = some round) {key : Bytes} {msg : StoredMessage Index}
    (hhand : round.hand = .checked key msg) (order : DispatchOrder) :
    Sound lib (broker.dispatch round order key msg) := by
  have hheld : inHand round.hand = some key := by rw [hhand, inHand]
  refine hsound.of_quiet ((broker.hub.dispatchToTopic order round.topic
      (queueMessage key msg) key).receivers.reverse.map (Event.sent · key) ++
        [.dispatched key (subscribers broker.hub msg.topic)])
    (by simp [Broker.dispatch]) (by simp) ?_ ?_ hsound.idle ?_
  · intro consumer other hother hfinished
    have hsame : key = other := by
      simp only [List.mem_append, List.mem_map, Event.sent.injEq, List.mem_singleton,
        reduceCtorEq, or_false] at hother
      obtain ⟨_, -, -, hsame⟩ := hother
      exact hsame
    subst hsame
    exact hsound.released key hfinished round hround (.inr hheld)
  · intro other hremoved
    apply hsound.absent
    simpa [Removed, Broker.dispatch] using hremoved
  · rintro other hfinished _ ⟨⟩ hother
    apply hsound.released other hfinished round hround
    rcases hother with hrest | hsent
    · exact .inl hrest
    · simp only at hsent
      split_ifs at hsent
      · cases hsent
      · exact .inr (hheld.trans hsent)

theorem Sound.track (hsound : Sound lib broker) {round : Round Index}
    (hround : broker.round = some round) {key : Bytes}
    (hhand : round.hand = .sent key) (now : ℕ) :
    Sound lib { broker with
      dispatcher := broker.dispatcher.track key now round.topic
      round := some { round with hand := .idle } } := by
  have hheld : inHand round.hand = some key := by rw [hhand, inHand]
  refine hsound.proceed hround broker.queue ?_ ?_
  · intro other hfinished
    have hne : key ≠ other := by
      rintro rfl
      exact hsound.released key hfinished round hround (.inr hheld)
    exact (getElem?_insert_ne hne _).trans (hsound.idle other hfinished)
  · rintro other (hrest | hnone)
    · exact .inl hrest
    · cases hnone

/-- Once the report is made the in-flight entry is gone, and no pass holds the
key that could bring it back. -/
theorem Sound.notify (hsound : Sound lib broker) {key : Bytes}
    (hreleased : Removed key broker.log → ∀ round ∈ broker.round,
      ¬ Holds lib round key) (queue : RetryQueue.Queue Bytes) :
    Sound lib { broker with
      queue
      dispatcher := broker.dispatcher.removeInFlight key
      log := .reported key :: broker.log } := by
  refine ⟨hsound.neverResent, ?_, ?_, ?_⟩
  · intro other hremoved
    apply hsound.absent
    simpa [Removed] using hremoved
  · intro other hfinished
    by_cases hkey : key = other
    · subst hkey
      exact Std.ExtTreeMap.getElem?_erase_self
    · have hbefore : Finished other broker.log :=
        hfinished.resolve_left fun hnow => hkey hnow.1
      exact (getElem?_erase_ne hkey).trans (hsound.idle other hbefore)
  · rintro other (⟨rfl, hremoved⟩ | hbefore)
    · exact hreleased hremoved
    · exact hsound.released other hbefore

theorem holds_of_rest {round : Round Index} {entry : Bytes × Bytes}
    {rest : List (Bytes × Bytes)} (hrest : round.rest = entry :: rest)
    (expiredKeys : List Bytes) {key : Bytes}
    (hholds : Holds lib { round with rest, expiredKeys } key) :
    Holds lib round key := by
  refine hholds.imp_left ?_
  rintro ⟨other, hother, hlive⟩
  refine ⟨other, ?_, hlive⟩
  rw [hrest]
  exact List.mem_cons_of_mem _ hother

theorem Sound.step {action : Action Index} (hsound : Sound lib broker)
    (hseparate : Separate lib broker action)
    (heffect : Effect lib broker action next) : Sound lib next := by
  cases heffect with
  | tick nowMs hlater =>
      exact ⟨hsound.neverResent, hsound.absent, hsound.idle, hsound.released⟩
  | publish batch nowMs sm hkept => exact hsound.store hkept hseparate
  | apply entry sm hkept => exact hsound.store hkept hseparate
  | register consumer =>
      exact ⟨hsound.neverResent, hsound.absent, hsound.idle, hsound.released⟩
  | unregister id =>
      refine hsound.of_quiet _ rfl (by simp) (by simp) ?_ hsound.idle hsound.released
      intro key hremoved
      apply hsound.absent
      simpa [Removed] using hremoved
  | receive id =>
      exact ⟨hsound.neverResent, hsound.absent, hsound.idle, hsound.released⟩
  | nack consumer deliveryTag =>
      refine hsound.of_quiet [_] rfl (by simp) (by simp) ?_ hsound.idle hsound.released
      intro key hremoved
      apply hsound.absent
      simpa [Removed] using hremoved
  | ack consumer deliveryTag =>
      refine hsound.of_quiet [_] rfl (by simp) (by simp) ?_ hsound.idle hsound.released
      intro key hremoved
      apply hsound.absent
      simpa [Removed] using hremoved
  | begin topic nowMs hreached =>
      refine ⟨hsound.neverResent, hsound.absent, hsound.idle, ?_⟩
      rintro key hfinished _ ⟨⟩ (⟨entry, hentry, rfl, -⟩ | hnone)
      · have habsent := (hsound.absent _ (removed_of_finished hfinished)).2
        rw [(mem_scan_iff.mp hentry).1] at habsent
        cases habsent
      · cases hnone
  | skip now round key value rest hround hrest =>
      exact hsound.proceed hround _
        (fun other hother => inFlight_isInFlight now (hsound.idle other hother))
        fun other => holds_of_rest hrest round.expiredKeys
  | expired now round key value rest msg hround hrest hdecodes hexpired =>
      exact hsound.proceed hround _
        (fun other hother => inFlight_isInFlight now (hsound.idle other hother))
        fun other => holds_of_rest hrest _
  | deliverable now round key value rest msg hround hrest hdecodes halive =>
      refine hsound.proceed hround _
        (fun other hother => inFlight_isInFlight now (hsound.idle other hother)) ?_
      rintro other (hlater | hnow)
      · exact holds_of_rest hrest round.expiredKeys (.inl hlater)
      · cases hnow
        refine .inl ⟨(key, value), ?_, rfl, msg, hdecodes, halive⟩
        rw [hrest]
        exact List.mem_cons_self
  | dispatch order round key msg hround hhand => exact hsound.dispatch hround hhand order
  | track now round key hround hhand => exact hsound.track hround hhand now
  | scanError round hround =>
      refine hsound.proceed hround _ hsound.idle ?_
      rintro key (⟨entry, hentry, -⟩ | hheld)
      · exact absurd hentry List.not_mem_nil
      · exact .inr hheld
  | expire round key keys hround hkeys =>
      exact hsound.proceed hround _ hsound.idle fun other hother => hother
  | finish =>
      exact ⟨hsound.neverResent, hsound.absent, hsound.idle, by rintro _ _ _ ⟨⟩⟩
  | requeue action queue hwaiting =>
      exact ⟨hsound.neverResent, hsound.absent, hsound.idle, hsound.released⟩
  | delete action keys sm dispatcher queue late hdoomed hdeletes hforgets =>
      exact hsound.delete hdeletes queue late hforgets
  | notify key keys queue hnotifying hwaiting =>
      refine hsound.notify ?_ queue
      exact hseparate key (by rw [hnotifying]; rfl)

end Steps

/-- In every run in which publishes take fresh keys and no removed message is
reported while the running pass holds it, a message whose deletion has been
reported is never sent again and is not in flight. -/
theorem deleted_message_stays_gone (lib : Libraries Index) (backend : Backend)
    (bucketSize : TimeBucketSize) (inFlightTimeout : Duration) (startMs : Int64)
    {actions : List (Action Index)} {broker : Broker Index}
    (hseparate : Meets (step lib backend) (Separate lib)
      (.start bucketSize inFlightTimeout startMs) actions)
    (hrun : run (step lib backend) (.start bucketSize inFlightTimeout startMs)
      actions = some broker) : StaysGone broker := by
  have hsound : Sound lib broker :=
    run_effects (fun _ _ _ hsound hseparate heffect => hsound.step hseparate heffect)
      (stocked_start _ _ _) (sound_start lib _ _ _) hseparate hrun
  exact ⟨hsound.neverResent, hsound.idle⟩

def onlyConsumer : ConsumerEntry := ⟨"c1", "orders", ""⟩

/-- A message is sent to the only consumer and acknowledged. -/
def sendAndAck : List (Action Bytes) :=
  [.register onlyConsumer, publishOrder, .begin "orders" 10, .check 0,
    .dispatch .sorted, .track 0, .finish, .ack onlyConsumer orderKey true]

/-- The flush comes between two passes. -/
theorem deleted_message_stays_gone_betweenPasses :
    ∃ broker, run (step orderLibraries .direct) orderBroker
        (sendAndAck ++ flushOnce ++ [.begin "orders" 10, .finish]) = some broker ∧
      Finished orderKey broker.log ∧ StaysGone broker := by
  have hseparate : Meets (step orderLibraries .direct) (Separate orderLibraries)
      orderBroker (sendAndAck ++ flushOnce ++ [.begin "orders" 10, .finish]) := by
    decide +kernel
  have hfinish : ∃ broker, run (step orderLibraries .direct) orderBroker
      (sendAndAck ++ flushOnce ++ [.begin "orders" 10, .finish]) = some broker ∧
        Finished orderKey broker.log :=
    exists_finish_of_any (by decide +kernel)
  obtain ⟨broker, hrun, hfinished⟩ := hfinish
  exact ⟨broker, hrun, hfinished, deleted_message_stays_gone _ _ _ _ _ hseparate hrun⟩

/-- The flush comes after the next pass has taken its snapshot: the pass sends the
deleted message and leaves its key in flight. -/
theorem stale_snapshot_resends :
    ∃ broker, run (step orderLibraries .direct) orderBroker
        (sendAndAck ++ [.begin "orders" 10] ++ flushOnce ++
          [.check 1, .dispatch .sorted, .track 1, .finish]) = some broker ∧
      Finished orderKey broker.log ∧ ¬ NeverResent broker.log ∧
      broker.sm.db[orderKey]? = none ∧
      broker.dispatcher.inFlight[orderKey]? = some ⟨1, "orders"⟩ :=
  exists_finish_of_any (by decide +kernel)

end FutureQ.Deleted
