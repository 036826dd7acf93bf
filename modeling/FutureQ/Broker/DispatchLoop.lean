import FutureQ.Broker.Registry
import FutureQ.Broker.Rounds

/-!
# The loop of the dispatcher

`Dispatcher.Run` waits for the end of the context, for a signal on `wakeCh` or for its
timer, makes a pass over the active topics and sets the timer again.  `Hub.Register`
releases the lock of the hub before it signals, and the signal is dropped when the
channel, which has room for one, is full.  A `Loop` puts this around the shared state
of the broker, with one action for every point at which other goroutines can come in
between.

`no_wake_up_lost` shows that a dropped signal is never missed: when the loop waits
with an empty channel, the topic of everyone who has registered and signalled was scanned
afterwards, unless a pass found the node to be a follower or the consumer has left.
`loop_never_stuck` shows that the loop can always go on: whenever it waits its timer is
running or has fired.
-/

namespace FutureQ.DispatchLoop

open FutureQ.OrderedStore
open FutureQ.Transition
open FutureQ.Storage
open FutureQ.Keys
open FutureQ.Repository
open FutureQ.Deleter
open FutureQ.Consumers
open FutureQ.Dispatch
open FutureQ.Registry
open FutureQ.Rounds

/-- A timer that runs, one whose channel holds a tick, and one with neither. -/
inductive Timer where
  | armed (delay : Duration)
  | fired
  | stopped
  deriving DecidableEq, Repr

/-- What a pass was started by. -/
inductive Trigger where
  | wake
  | tick
  deriving DecidableEq, Repr

/-- Where `Run` stands.  `woken` is in front of `timer.Stop`; `asking` to `passing` are
the steps of `dispatchAll`: `HasConsumers`, `isLeader`, `ActiveTopics`, `time.Now` and
the topics that are left. -/
inductive Position where
  | select
  | woken
  | asking (trigger : Trigger)
  | leading (trigger : Trigger)
  | listing (trigger : Trigger)
  | stamping (trigger : Trigger) (topics : List String)
  | passing (trigger : Trigger) (nowMs : Int64) (topics : List String) (dispatched : ℕ)
  | resetting (trigger : Trigger) (dispatched : ℕ)
  | returned
  deriving DecidableEq, Repr

inductive Note where
  | registered (consumer : ConsumerEntry)
  | unregistered (id : String)
  | scanned (topic : String)
  | follower
  deriving DecidableEq, Repr

variable {Index : Type}

/-- `signals` are the calls of `Register` that have released the lock and not yet
signalled; `history` has the newest note in front. -/
structure Loop (Index : Type) where
  broker : Broker Index
  wakeCh : Bool
  signals : List ConsumerEntry
  timer : Timer
  position : Position
  history : List Note

def Loop.start (interval : Duration) (bucketSize : TimeBucketSize)
    (inFlightTimeout : Duration) (nowMs : Int64) : Loop Index where
  broker := .start bucketSize inFlightTimeout nowMs
  wakeCh := false
  signals := []
  timer := .armed interval
  position := .select
  history := []

inductive Action (Index : Type) where
  | others (action : Rounds.Action Index)
  | register (consumer : ConsumerEntry)
  | signal (position : ℕ)
  | unregister (id : String)
  | fire
  | receiveWake
  | receiveTick
  | receiveDone
  | stopTimer
  | hasConsumers
  | isLeader (answer : Bool)
  | activeTopics (order : MapOrder)
  | now
  | beginTopic
  | visit (action : Rounds.Action Index)
  | endPass
  | reset

/-- The actions of other goroutines that leave the registry alone. -/
def elsewhere : Rounds.Action Index → Bool
  | .tick _ | .publish _ _ | .apply _ | .receive _ | .ack _ _ _ | .drain
  | .deleteKeys _ | .reenqueue | .notify | .applyLate _ _ => true
  | .register _ | .unregister _ | .begin _ _ | .check _ | .dispatch _ | .track _
  | .scanError | .expire | .finish => false

/-- The steps of `dispatchTopic` behind its scan. -/
def inTopic : Rounds.Action Index → Bool
  | .check _ | .dispatch _ | .track _ | .scanError | .expire | .finish => true
  | .tick _ | .publish _ _ | .apply _ | .register _ | .unregister _ | .receive _
  | .ack _ _ _ | .begin _ _ | .drain | .deleteKeys _ | .reenqueue | .notify
  | .applyLate _ _ => false

/-- `dispatched++` stands right behind `inFlight.Store`. -/
def counted : Rounds.Action Index → ℕ
  | .track _ => 1
  | _ => 0

/-- The delay that `Run` gives the timer after a pass. -/
def nextDelay (interval : Duration) : Trigger → ℕ → Duration
  | .wake, _ => interval
  | .tick, dispatched => if dispatched > 0 then 0 else interval

def step (lib : Libraries Index) (backend : Backend) (interval : Duration)
    (loop : Loop Index) : Action Index → Option (Loop Index)
  | .others action =>
      if elsewhere action then
        (Rounds.step lib backend loop.broker action).map fun broker =>
          { loop with broker }
      else none
  | .register consumer =>
      if consumer.id ∈ loop.broker.hub.byID then none
      else
        (Rounds.step lib backend loop.broker (.register consumer)).map fun broker =>
          { loop with
            broker
            signals := loop.signals ++ [consumer]
            history := .registered consumer :: loop.history }
  | .signal position =>
      match loop.signals[position]? with
      | none => none
      | some _ =>
          some { loop with
            wakeCh := true
            signals := loop.signals.eraseIdx position }
  | .unregister id =>
      (Rounds.step lib backend loop.broker (.unregister id)).map fun broker =>
        { loop with broker, history := .unregistered id :: loop.history }
  | .fire =>
      match loop.timer with
      | .armed _ => some { loop with timer := .fired }
      | _ => none
  | .receiveWake =>
      match loop.position, loop.wakeCh with
      | .select, true => some { loop with wakeCh := false, position := .woken }
      | _, _ => none
  | .receiveTick =>
      match loop.position, loop.timer with
      | .select, .fired => some { loop with timer := .stopped, position := .asking .tick }
      | _, _ => none
  | .receiveDone =>
      match loop.position with
      | .select => some { loop with position := .returned }
      | _ => none
  | .stopTimer =>
      match loop.position with
      -- a tick that is already in the channel is drained
      | .woken => some { loop with timer := .stopped, position := .asking .wake }
      | _ => none
  | .hasConsumers =>
      match loop.position with
      | .asking trigger =>
          if loop.broker.hub.hasConsumers then
            some { loop with position := .leading trigger }
          else some { loop with position := .resetting trigger 0 }
      | _ => none
  | .isLeader answer =>
      match loop.position, backend, answer with
      | .leading trigger, _, true => some { loop with position := .listing trigger }
      | .leading trigger, .raft, false =>
          some { loop with
            position := .resetting trigger 0
            history := .follower :: loop.history }
      | _, _, _ => none
  | .activeTopics order =>
      match loop.position with
      | .listing trigger =>
          let topics := loop.broker.hub.activeTopics order
          some { loop with
            position := if topics.length = 0 then .resetting trigger 0
              else .stamping trigger topics }
      | _ => none
  | .now =>
      match loop.position with
      | .stamping trigger topics =>
          some { loop with position := .passing trigger loop.broker.nowMs topics 0 }
      | _ => none
  | .beginTopic =>
      match loop.position with
      | .passing trigger nowMs (topic :: topics) dispatched =>
          (Rounds.step lib backend loop.broker (.begin topic nowMs)).map fun broker =>
            { loop with
              broker
              position := .passing trigger nowMs topics dispatched
              history := .scanned topic :: loop.history }
      | _ => none
  | .visit action =>
      match loop.position with
      | .passing trigger nowMs topics dispatched =>
          if inTopic action then
            (Rounds.step lib backend loop.broker action).map fun broker =>
              { loop with
                broker
                position := .passing trigger nowMs topics (dispatched + counted action) }
          else none
      | _ => none
  | .endPass =>
      match loop.position, loop.broker.round with
      | .passing trigger _ [] dispatched, none =>
          some { loop with position := .resetting trigger dispatched }
      | _, _ => none
  | .reset =>
      match loop.position with
      | .resetting trigger dispatched =>
          some { loop with
            timer := .armed (nextDelay interval trigger dispatched)
            position := .select }
      | _ => none

/-! ## What a step does -/

/-- What an action does to the loop. -/
inductive Effect (lib : Libraries Index) (backend : Backend) (interval : Duration)
    (loop : Loop Index) : Loop Index → Prop where
  | others (action : Rounds.Action Index) (broker : Broker Index)
      (helsewhere : elsewhere action = true)
      (hstep : Rounds.step lib backend loop.broker action = some broker) :
      Effect lib backend interval loop { loop with broker }
  | register (consumer : ConsumerEntry) (broker : Broker Index)
      (hfresh : consumer.id ∉ loop.broker.hub.byID)
      (hstep : Rounds.step lib backend loop.broker (.register consumer) = some broker) :
      Effect lib backend interval loop
        { loop with
          broker
          signals := loop.signals ++ [consumer]
          history := .registered consumer :: loop.history }
  | signal (position : ℕ) :
      Effect lib backend interval loop
        { loop with wakeCh := true, signals := loop.signals.eraseIdx position }
  | unregister (id : String) (broker : Broker Index)
      (hstep : Rounds.step lib backend loop.broker (.unregister id) = some broker) :
      Effect lib backend interval loop
        { loop with broker, history := .unregistered id :: loop.history }
  | fire (delay : Duration) (htimer : loop.timer = .armed delay) :
      Effect lib backend interval loop { loop with timer := .fired }
  | receiveWake (hposition : loop.position = .select) :
      Effect lib backend interval loop
        { loop with wakeCh := false, position := .woken }
  | receiveTick (hposition : loop.position = .select) :
      Effect lib backend interval loop
        { loop with timer := .stopped, position := .asking .tick }
  | receiveDone (hposition : loop.position = .select) :
      Effect lib backend interval loop { loop with position := .returned }
  | stopTimer (hposition : loop.position = .woken) :
      Effect lib backend interval loop
        { loop with timer := .stopped, position := .asking .wake }
  | consumers (trigger : Trigger) (hposition : loop.position = .asking trigger) :
      Effect lib backend interval loop { loop with position := .leading trigger }
  | noConsumers (trigger : Trigger) (hposition : loop.position = .asking trigger)
      (hnone : loop.broker.hub.hasConsumers = false) :
      Effect lib backend interval loop { loop with position := .resetting trigger 0 }
  | leader (trigger : Trigger) (hposition : loop.position = .leading trigger) :
      Effect lib backend interval loop { loop with position := .listing trigger }
  | follower (trigger : Trigger) (hposition : loop.position = .leading trigger) :
      Effect lib backend interval loop
        { loop with
          position := .resetting trigger 0
          history := .follower :: loop.history }
  | list (trigger : Trigger) (order : MapOrder) (position : Position)
      (hposition : loop.position = .listing trigger)
      (hnext : position = .resetting trigger 0 ∧
          loop.broker.hub.activeTopics order = [] ∨
        position = .stamping trigger (loop.broker.hub.activeTopics order)) :
      Effect lib backend interval loop { loop with position }
  | now (trigger : Trigger) (topics : List String)
      (hposition : loop.position = .stamping trigger topics) :
      Effect lib backend interval loop
        { loop with position := .passing trigger loop.broker.nowMs topics 0 }
  | scan (trigger : Trigger) (nowMs : Int64) (topic : String) (topics : List String)
      (dispatched : ℕ) (broker : Broker Index)
      (hposition : loop.position = .passing trigger nowMs (topic :: topics) dispatched)
      (hstep : Rounds.step lib backend loop.broker (.begin topic nowMs) = some broker) :
      Effect lib backend interval loop
        { loop with
          broker
          position := .passing trigger nowMs topics dispatched
          history := .scanned topic :: loop.history }
  | visit (trigger : Trigger) (nowMs : Int64) (topics : List String)
      (dispatched total : ℕ) (action : Rounds.Action Index) (broker : Broker Index)
      (hposition : loop.position = .passing trigger nowMs topics dispatched)
      (hinTopic : inTopic action = true)
      (hstep : Rounds.step lib backend loop.broker action = some broker) :
      Effect lib backend interval loop
        { loop with broker, position := .passing trigger nowMs topics total }
  | endPass (trigger : Trigger) (nowMs : Int64) (dispatched : ℕ)
      (hposition : loop.position = .passing trigger nowMs [] dispatched)
      (hround : loop.broker.round = none) :
      Effect lib backend interval loop
        { loop with position := .resetting trigger dispatched }
  | reset (trigger : Trigger) (dispatched : ℕ)
      (hposition : loop.position = .resetting trigger dispatched) :
      Effect lib backend interval loop
        { loop with
          timer := .armed (nextDelay interval trigger dispatched)
          position := .select }

variable {lib : Libraries Index} {backend : Backend} {interval : Duration}

theorem effect_of_step {loop next : Loop Index} {action : Action Index}
    (hstep : step lib backend interval loop action = some next) :
    Effect lib backend interval loop next := by
  cases action with
  | others action =>
      simp only [step] at hstep
      split_ifs at hstep with helsewhere
      obtain ⟨broker, hbroker, rfl⟩ := Option.map_eq_some_iff.mp hstep
      exact .others action broker helsewhere hbroker
  | register consumer =>
      simp only [step] at hstep
      split_ifs at hstep with hknown
      obtain ⟨broker, hbroker, rfl⟩ := Option.map_eq_some_iff.mp hstep
      exact .register consumer broker hknown hbroker
  | signal position =>
      simp only [step] at hstep
      split at hstep
      · cases hstep
      · cases hstep
        exact .signal position
  | unregister id =>
      simp only [step] at hstep
      obtain ⟨broker, hbroker, rfl⟩ := Option.map_eq_some_iff.mp hstep
      exact .unregister id broker hbroker
  | fire =>
      simp only [step] at hstep
      split at hstep
      · rename_i delay htimer
        cases hstep
        exact .fire delay htimer
      · cases hstep
  | receiveWake =>
      simp only [step] at hstep
      split at hstep
      · rename_i hposition hwake
        cases hstep
        exact .receiveWake hposition
      · cases hstep
  | receiveTick =>
      simp only [step] at hstep
      split at hstep
      · rename_i hposition htimer
        cases hstep
        exact .receiveTick hposition
      · cases hstep
  | receiveDone =>
      simp only [step] at hstep
      split at hstep
      · rename_i hposition
        cases hstep
        exact .receiveDone hposition
      · cases hstep
  | stopTimer =>
      simp only [step] at hstep
      split at hstep
      · rename_i hposition
        cases hstep
        exact .stopTimer hposition
      · cases hstep
  | hasConsumers =>
      simp only [step] at hstep
      split at hstep
      · rename_i trigger hposition
        split_ifs at hstep with hconsumers
        · cases hstep
          exact .consumers trigger hposition
        · cases hstep
          exact .noConsumers trigger hposition (Bool.eq_false_iff.mpr hconsumers)
      · cases hstep
  | isLeader answer =>
      simp only [step] at hstep
      split at hstep
      · rename_i trigger hposition
        cases hstep
        exact .leader trigger hposition
      · rename_i trigger hposition
        cases hstep
        exact .follower trigger hposition
      · cases hstep
  | activeTopics order =>
      simp only [step] at hstep
      split at hstep
      · rename_i trigger hposition
        cases hstep
        refine .list trigger order _ hposition ?_
        split_ifs with hnone
        · exact .inl ⟨rfl, List.length_eq_zero_iff.mp hnone⟩
        · exact .inr rfl
      · cases hstep
  | now =>
      simp only [step] at hstep
      split at hstep
      · rename_i trigger topics hposition
        cases hstep
        exact .now trigger topics hposition
      · cases hstep
  | beginTopic =>
      simp only [step] at hstep
      split at hstep
      · rename_i trigger nowMs topic topics dispatched hposition
        obtain ⟨broker, hbroker, rfl⟩ := Option.map_eq_some_iff.mp hstep
        exact .scan trigger nowMs topic topics dispatched broker hposition hbroker
      · cases hstep
  | visit action =>
      simp only [step] at hstep
      split at hstep
      · rename_i trigger nowMs topics dispatched hposition
        split_ifs at hstep with hinTopic
        obtain ⟨broker, hbroker, rfl⟩ := Option.map_eq_some_iff.mp hstep
        exact .visit trigger nowMs topics dispatched _ action broker hposition hinTopic
          hbroker
      · cases hstep
  | endPass =>
      simp only [step] at hstep
      split at hstep
      · rename_i trigger nowMs dispatched hposition hround
        cases hstep
        exact .endPass trigger nowMs dispatched hposition hround
      · cases hstep
  | reset =>
      simp only [step] at hstep
      split at hstep
      · rename_i trigger dispatched hposition
        cases hstep
        exact .reset trigger dispatched hposition
      · cases hstep

/-! ## The shared state -/

section Shared

variable {broker next : Broker Index} {action : Rounds.Action Index}

/-- Only `Register` and `Unregister` touch the two indexes of the hub. -/
theorem registry_of_effect (heffect : Rounds.Effect lib broker action next)
    (hregister : ∀ consumer, action ≠ .register consumer)
    (hunregister : ∀ id, action ≠ .unregister id) :
    next.hub.topics = broker.hub.topics ∧ next.hub.byID = broker.hub.byID := by
  cases heffect with
  | register consumer => exact absurd rfl (hregister consumer)
  | unregister id => exact absurd rfl (hunregister id)
  | nack consumer deliveryTag =>
      exact ⟨topics_removeInFlight _ _ _, byID_removeInFlight _ _ _⟩
  | ack consumer deliveryTag =>
      exact ⟨topics_removeInFlight _ _ _, byID_removeInFlight _ _ _⟩
  | dispatch order round key msg hround hhand =>
      have hextends := extends_dispatchToTopic order broker.hub round.topic
        (queueMessage key msg) key
      exact ⟨hextends.topics, hextends.byID⟩
  | _ => exact ⟨rfl, rfl⟩

/-- The clock does not go back. -/
theorem nowMs_le_of_effect (heffect : Rounds.Effect lib broker action next) :
    broker.nowMs ≤ next.nowMs := by
  cases heffect with
  | tick nowMs hlater => exact hlater
  | _ => exact Int64.le_refl _

end Shared

/-! ## Wake-ups -/

/-- Since the consumer registered, `dispatchTopic` was called for its topic, or a pass
found the node to be a follower, or the consumer has left. -/
def Served (later : List Note) (consumer : ConsumerEntry) : Prop :=
  .scanned consumer.topic ∈ later ∨ .follower ∈ later ∨ .unregistered consumer.id ∈ later

/-- A pass is coming that has not yet asked for the active topics, or has the topic still
before it. -/
def Position.before (topic : String) : Position → Prop
  | .woken | .asking _ | .leading _ | .listing _ => True
  | .stamping _ topics | .passing _ _ topics _ => topic ∈ topics
  | .select | .resetting _ _ | .returned => False

/-- The consumer has still to signal, or a signal or a pass is on its way. -/
def Expected (loop : Loop Index) (consumer : ConsumerEntry) : Prop :=
  consumer ∈ loop.signals ∨ loop.wakeCh = true ∨ loop.position.before consumer.topic

/-- Everyone who registered has been served, or is registered and expected. -/
def Heard (history : List Note) (registered : List ConsumerEntry)
    (expected : ConsumerEntry → Prop) : Prop :=
  ∀ later consumer earlier, history = later ++ .registered consumer :: earlier →
    Served later consumer ∨ consumer ∈ registered ∧ expected consumer

theorem Served.mono {later more : List Note} {consumer : ConsumerEntry}
    (hserved : Served later consumer) (hsubset : ∀ note ∈ later, note ∈ more) :
    Served more consumer := by
  exact hserved.imp (hsubset _) (Or.imp (hsubset _) (hsubset _))

section Heard

variable {history : List Note} {registered : List ConsumerEntry}
  {expected : ConsumerEntry → Prop}

theorem Heard.imp (hheard : Heard history registered expected)
    {others : ConsumerEntry → Prop}
    (himp : ∀ consumer ∈ registered, expected consumer → others consumer) :
    Heard history registered others := by
  intro later consumer earlier hhistory
  exact (hheard later consumer earlier hhistory).imp_right fun ⟨hmem, hexpected⟩ =>
    ⟨hmem, himp consumer hmem hexpected⟩

/-- A new note has to care for the consumer it registers and for those still
expected. -/
theorem Heard.cons (hheard : Heard history registered expected) {note : Note}
    {nowRegistered : List ConsumerEntry} {nowExpected : ConsumerEntry → Prop}
    (hnew : ∀ consumer, note = .registered consumer →
      consumer ∈ nowRegistered ∧ nowExpected consumer)
    (hold : ∀ consumer ∈ registered, expected consumer →
      Served [note] consumer ∨ consumer ∈ nowRegistered ∧ nowExpected consumer) :
    Heard (note :: history) nowRegistered nowExpected := by
  intro later consumer earlier hhistory
  rcases List.cons_eq_append_iff.mp hhistory with ⟨rfl, hnote⟩ | ⟨rest, rfl, hrest⟩
  · cases hnote
    exact .inr (hnew consumer rfl)
  · rcases hheard rest consumer earlier hrest with hserved | ⟨hmem, hexpected⟩
    · exact .inl (hserved.mono fun other hother => List.mem_cons_of_mem _ hother)
    · refine (hold consumer hmem hexpected).imp_left fun hserved => ?_
      exact hserved.mono fun other hother =>
        List.mem_singleton.mp hother ▸ List.mem_cons_self

end Heard

structure Sound (loop : Loop Index) : Prop where
  stocked : Stocked loop.broker
  registry : ∃ registered, Represents loop.broker.hub registered ∧
    Heard loop.history registered (Expected loop)

theorem sound_start (bucketSize : TimeBucketSize) (inFlightTimeout : Duration)
    (nowMs : Int64) :
    Sound (Loop.start interval bucketSize inFlightTimeout nowMs : Loop Index) where
  stocked := stocked_start _ _ _
  registry := ⟨[], represents_newHub, fun later consumer earlier hhistory => by
    simp [Loop.start] at hhistory⟩

/-- A step of the others or of a pass leaves the registry and the expectations alone. -/
theorem Sound.broker {loop : Loop Index} (hsound : Sound loop)
    {action : Rounds.Action Index} {broker : Broker Index}
    (hregister : ∀ consumer, action ≠ .register consumer)
    (hunregister : ∀ id, action ≠ .unregister id)
    (hstep : Rounds.step lib backend loop.broker action = some broker)
    {position : Position} (hbefore : ∀ topic, loop.position.before topic →
      position.before topic) :
    Sound { loop with broker, position } := by
  obtain ⟨heffect, hstocked⟩ := Rounds.effect_of_step hsound.stocked hstep
  obtain ⟨registered, hrepresents, hheard⟩ := hsound.registry
  obtain ⟨htopics, hbyID⟩ := registry_of_effect heffect hregister hunregister
  refine ⟨hstocked, registered, hrepresents.congr htopics hbyID, hheard.imp ?_⟩
  rintro consumer - (hsignal | hwake | hcoming)
  · exact .inl hsignal
  · exact .inr (.inl hwake)
  · exact .inr (.inr (hbefore _ hcoming))

/-- Moves of the loop itself that keep everyone expected who was. -/
theorem Sound.move {loop : Loop Index} (hsound : Sound loop) (wakeCh : Bool)
    (signals : List ConsumerEntry) (timer : Timer) (position : Position)
    (hexpected : ∀ consumer, Expected loop consumer →
      Expected { loop with wakeCh, signals, timer, position } consumer) :
    Sound { loop with wakeCh, signals, timer, position } := by
  obtain ⟨registered, hrepresents, hheard⟩ := hsound.registry
  exact ⟨hsound.stocked, registered, hrepresents,
    hheard.imp fun consumer _ => hexpected consumer⟩

theorem Sound.effect {loop next : Loop Index} (hsound : Sound loop)
    (heffect : Effect lib backend interval loop next) : Sound next := by
  obtain ⟨registered, hrepresents, hheard⟩ := hsound.registry
  cases heffect with
  | others action broker helsewhere hstep =>
      exact hsound.broker (by rintro consumer rfl; cases helsewhere)
        (by rintro id rfl; cases helsewhere) hstep fun _ => id
  | register consumer broker hfresh hstep =>
      have hstocked := (Rounds.effect_of_step hsound.stocked hstep).2
      simp only [Rounds.step] at hstep
      split_ifs at hstep
      cases hstep
      refine ⟨hstocked, _, hrepresents.register hfresh, hheard.cons ?_ ?_⟩
      · rintro other hnote
        cases hnote
        exact ⟨by simp, .inl (by simp)⟩
      · rintro other hmem (hsignal | hcoming)
        · exact .inr ⟨List.mem_append_left _ hmem, .inl (List.mem_append_left _ hsignal)⟩
        · exact .inr ⟨List.mem_append_left _ hmem, .inr hcoming⟩
  | signal position =>
      exact hsound.move _ _ _ _ fun consumer _ => .inr (.inl rfl)
  | unregister id broker hstep =>
      have hstocked := (Rounds.effect_of_step hsound.stocked hstep).2
      simp only [Rounds.step] at hstep
      cases hstep
      refine ⟨hstocked, _, hrepresents.unregister id, hheard.cons ?_ ?_⟩
      · intro consumer hnote
        cases hnote
      · intro consumer hmem hexpected
        by_cases hid : consumer.id = id
        · exact .inl (.inr (.inr (hid ▸ List.mem_cons_self)))
        · exact .inr ⟨mem_without_iff.mpr ⟨hmem, hid⟩, hexpected⟩
  | fire delay htimer => exact hsound.move _ _ _ _ fun consumer hexpected => hexpected
  | receiveWake hposition =>
      exact hsound.move _ _ _ _ fun consumer _ => .inr (.inr trivial)
  | receiveTick hposition =>
      exact hsound.move _ _ _ _ fun consumer _ => .inr (.inr trivial)
  | receiveDone hposition =>
      refine hsound.move _ _ _ _ fun consumer hexpected => ?_
      rw [Expected, hposition] at hexpected
      exact hexpected
  | stopTimer hposition =>
      exact hsound.move _ _ _ _ fun consumer _ => .inr (.inr trivial)
  | consumers trigger hposition =>
      exact hsound.move _ _ _ _ fun consumer _ => .inr (.inr trivial)
  | noConsumers trigger hposition hnone =>
      have hempty : registered = [] := by
        by_contra hsome
        rw [hrepresents.hasConsumers_iff.mpr hsome] at hnone
        cases hnone
      subst hempty
      exact ⟨hsound.stocked, [], hrepresents, hheard.imp fun consumer hmem => by
        cases hmem⟩
  | leader trigger hposition =>
      exact hsound.move _ _ _ _ fun consumer _ => .inr (.inr trivial)
  | follower trigger hposition =>
      refine ⟨hsound.stocked, registered, hrepresents, hheard.cons ?_ ?_⟩
      · intro consumer hnote
        cases hnote
      · exact fun consumer _ _ => .inl (.inr (.inl List.mem_cons_self))
  | list trigger order position hposition hnext =>
      refine ⟨hsound.stocked, registered, hrepresents, hheard.imp fun consumer hmem _ => ?_⟩
      have htopic := (hrepresents.mem_activeTopics_iff order).mpr ⟨consumer, hmem, rfl⟩
      rcases hnext with ⟨-, hnone⟩ | rfl
      · rw [hnone] at htopic
        cases htopic
      · exact .inr (.inr htopic)
  | now trigger topics hposition =>
      refine hsound.move _ _ _ _ fun consumer hexpected => ?_
      rw [Expected, hposition] at hexpected
      exact hexpected
  | scan trigger nowMs topic topics dispatched broker hposition hstep =>
      obtain ⟨hbegun, hstocked⟩ := Rounds.effect_of_step hsound.stocked hstep
      obtain ⟨htopics, hbyID⟩ := registry_of_effect hbegun (by rintro _ ⟨⟩) (by rintro _ ⟨⟩)
      refine ⟨hstocked, registered, hrepresents.congr htopics hbyID, hheard.cons ?_ ?_⟩
      · intro consumer hnote
        cases hnote
      · rintro consumer hmem (hsignal | hwake | hcoming)
        · exact .inr ⟨hmem, .inl hsignal⟩
        · exact .inr ⟨hmem, .inr (.inl hwake)⟩
        · rw [hposition] at hcoming
          rcases List.mem_cons.mp hcoming with hthis | hlater
          · exact .inl (.inl (hthis ▸ List.mem_cons_self))
          · exact .inr ⟨hmem, .inr (.inr hlater)⟩
  | visit trigger nowMs topics dispatched total action broker hposition hinTopic hstep =>
      refine hsound.broker ?_ ?_ hstep (by rw [hposition]; exact fun _ => id)
      · rintro consumer rfl
        cases hinTopic
      · rintro id rfl
        cases hinTopic
  | endPass trigger nowMs dispatched hposition hround =>
      refine hsound.move _ _ _ _ fun consumer hexpected => ?_
      rw [Expected, hposition] at hexpected
      -- no topic is before a pass that has none left
      exact hexpected.imp_right (Or.imp_right List.not_mem_nil)
  | reset trigger dispatched hposition =>
      refine hsound.move _ _ _ _ fun consumer hexpected => ?_
      rw [Expected, hposition] at hexpected
      exact hexpected

/-- When the loop waits and its channel is empty, the topic of every consumer that has
registered and signalled has been scanned since, unless a pass found the node to be a
follower or the consumer has left: a signal that found the channel full, or that came
while a pass was under way, is not lost. -/
theorem no_wake_up_lost (bucketSize : TimeBucketSize) (inFlightTimeout : Duration)
    (startMs : Int64) {actions : List (Action Index)} {loop : Loop Index}
    (hrun : run (step lib backend interval)
      (.start interval bucketSize inFlightTimeout startMs) actions = some loop)
    (hselect : loop.position = .select) (hempty : loop.wakeCh = false)
    {later earlier : List Note} {consumer : ConsumerEntry}
    (hhistory : loop.history = later ++ .registered consumer :: earlier)
    (hsignalled : consumer ∉ loop.signals) : Served later consumer := by
  have hsound : Sound loop := run_preserves
    (fun _ _ _ hsound hstep => hsound.effect (effect_of_step hstep))
    (sound_start bucketSize inFlightTimeout startMs) hrun
  obtain ⟨registered, -, hheard⟩ := hsound.registry
  rcases hheard later consumer earlier hhistory with
    hserved | ⟨-, hsignal | hwake | hcoming⟩
  · exact hserved
  · exact absurd hsignal hsignalled
  · rw [hempty] at hwake
    cases hwake
  · rw [hselect] at hcoming
    cases hcoming

/-- A second consumer registers while the pass for the first is under way, and its
signal finds the loop busy; the next pass scans its topic. -/
def busyRegistration : List (Action Bytes) :=
  [.register ⟨"c1", "orders", ""⟩, .signal 0, .receiveWake, .stopTimer, .hasConsumers,
    .isLeader true, .activeTopics .sorted, .now, .register ⟨"c2", "bills", ""⟩, .signal 0,
    .beginTopic, .visit .finish, .endPass, .reset, .receiveWake, .stopTimer, .hasConsumers,
    .isLeader true, .activeTopics .sorted, .now, .beginTopic, .visit .finish, .beginTopic,
    .visit .finish, .endPass, .reset]

theorem no_wake_up_lost_busy :
    ∃ loop, run (step orderLibraries .direct 100)
        (.start 100 ⟨0, valid_zero⟩ 30000000000 10) busyRegistration = some loop ∧
      Served [.scanned "orders", .scanned "bills", .scanned "orders"]
        ⟨"c2", "bills", ""⟩ := by
  have hexists : ∃ loop, run (step orderLibraries .direct 100)
      (.start 100 ⟨0, valid_zero⟩ 30000000000 10) busyRegistration = some loop ∧
        loop.position = .select ∧ loop.wakeCh = false ∧ loop.signals = [] ∧
        loop.history = [.scanned "orders", .scanned "bills", .scanned "orders"] ++
          .registered ⟨"c2", "bills", ""⟩ :: [.registered ⟨"c1", "orders", ""⟩] :=
    exists_finish_of_any (by decide +kernel)
  obtain ⟨loop, hrun, hselect, hempty, hsignals, hhistory⟩ := hexists
  exact ⟨loop, hrun, no_wake_up_lost _ _ _ hrun hselect hempty hhistory
    (hsignals ▸ List.not_mem_nil)⟩

/-! ## Progress -/

/-- What the goroutine of the dispatcher or its timer does. -/
def Action.own : Action Index → Bool
  | .fire | .receiveWake | .receiveTick | .stopTimer | .hasConsumers | .isLeader _
  | .activeTopics _ | .now | .beginTopic | .visit _ | .endPass | .reset => true
  | .others _ | .register _ | .signal _ | .unregister _ | .receiveDone => false

/-- The timer at a position: never stopped while the loop waits for it, and stopped with
its channel drained while a pass is made, as `Reset` demands. -/
def Position.Tolerates : Position → Timer → Prop
  | .select, timer => timer ≠ .stopped
  | .woken, timer => timer ≠ .stopped
  | .returned, _ => True
  | .asking _, timer => timer = .stopped
  | .leading _, timer => timer = .stopped
  | .listing _, timer => timer = .stopped
  | .stamping _ _, timer => timer = .stopped
  | .passing _ _ _ _, timer => timer = .stopped
  | .resetting _ _, timer => timer = .stopped

structure Timed (loop : Loop Index) : Prop where
  stocked : Stocked loop.broker
  timer : loop.position.Tolerates loop.timer
  clock : ∀ trigger nowMs topics dispatched,
    loop.position = .passing trigger nowMs topics dispatched → nowMs ≤ loop.broker.nowMs

theorem timed_start (bucketSize : TimeBucketSize) (inFlightTimeout : Duration)
    (nowMs : Int64) :
    Timed (Loop.start interval bucketSize inFlightTimeout nowMs : Loop Index) where
  stocked := stocked_start _ _ _
  timer := Timer.noConfusion
  clock _ _ _ _ hposition := by cases hposition

theorem tolerates_fired {position : Position} {delay : Duration}
    (htimer : position.Tolerates (.armed delay)) : position.Tolerates .fired := by
  cases position with
  | select => exact Timer.noConfusion
  | woken => exact Timer.noConfusion
  | returned => trivial
  | _ => cases htimer

/-- Other goroutines move the shared state only. -/
theorem Timed.broker {loop : Loop Index} (htimed : Timed loop)
    {action : Rounds.Action Index} {broker : Broker Index}
    (hstep : Rounds.step lib backend loop.broker action = some broker) :
    Timed { loop with broker } := by
  obtain ⟨heffect, hstocked⟩ := Rounds.effect_of_step htimed.stocked hstep
  refine ⟨hstocked, htimed.timer, fun trigger nowMs topics dispatched hposition => ?_⟩
  exact Int64.le_trans (htimed.clock trigger nowMs topics dispatched hposition)
    (nowMs_le_of_effect heffect)

/-- Moves of the loop itself outside a pass. -/
theorem Timed.move {loop : Loop Index} (htimed : Timed loop) {next : Loop Index}
    (hbroker : next.broker = loop.broker)
    (htimer : next.position.Tolerates next.timer)
    (hposition : ∀ trigger nowMs topics dispatched,
      next.position ≠ .passing trigger nowMs topics dispatched) : Timed next where
  stocked := hbroker ▸ htimed.stocked
  timer := htimer
  clock trigger nowMs topics dispatched hpassing :=
    absurd hpassing (hposition trigger nowMs topics dispatched)

theorem Timed.effect {loop next : Loop Index} (htimed : Timed loop)
    (heffect : Effect lib backend interval loop next) : Timed next := by
  have htimer := htimed.timer
  cases heffect with
  | others action broker helsewhere hstep => exact htimed.broker hstep
  | register consumer broker hfresh hstep =>
      exact ⟨(htimed.broker hstep).stocked, htimer, (htimed.broker hstep).clock⟩
  | signal position => exact ⟨htimed.stocked, htimer, htimed.clock⟩
  | unregister id broker hstep =>
      exact ⟨(htimed.broker hstep).stocked, htimer, (htimed.broker hstep).clock⟩
  | fire delay harmed =>
      rw [harmed] at htimer
      exact ⟨htimed.stocked, tolerates_fired htimer, htimed.clock⟩
  | receiveWake hposition =>
      rw [hposition] at htimer
      exact htimed.move rfl htimer fun _ _ _ _ => Position.noConfusion
  | receiveTick hposition =>
      exact htimed.move rfl rfl fun _ _ _ _ => Position.noConfusion
  | receiveDone hposition =>
      exact htimed.move rfl trivial fun _ _ _ _ => Position.noConfusion
  | stopTimer hposition =>
      exact htimed.move rfl rfl fun _ _ _ _ => Position.noConfusion
  | consumers trigger hposition =>
      rw [hposition] at htimer
      exact htimed.move rfl htimer fun _ _ _ _ => Position.noConfusion
  | noConsumers trigger hposition hnone =>
      rw [hposition] at htimer
      exact htimed.move rfl htimer fun _ _ _ _ => Position.noConfusion
  | leader trigger hposition =>
      rw [hposition] at htimer
      exact htimed.move rfl htimer fun _ _ _ _ => Position.noConfusion
  | follower trigger hposition =>
      rw [hposition] at htimer
      exact htimed.move rfl htimer fun _ _ _ _ => Position.noConfusion
  | list trigger order position hposition hnext =>
      rw [hposition] at htimer
      rcases hnext with ⟨rfl, -⟩ | rfl
      · exact htimed.move rfl htimer fun _ _ _ _ => Position.noConfusion
      · exact htimed.move rfl htimer fun _ _ _ _ => Position.noConfusion
  | now trigger topics hposition =>
      rw [hposition] at htimer
      refine ⟨htimed.stocked, htimer, fun _ _ _ _ hpassing => ?_⟩
      cases hpassing
      exact Int64.le_refl _
  | scan trigger nowMs topic topics dispatched broker hposition hstep =>
      have hclock := (htimed.broker hstep).clock trigger nowMs (topic :: topics) dispatched
        hposition
      rw [hposition] at htimer
      refine ⟨(htimed.broker hstep).stocked, htimer, fun _ _ _ _ hpassing => ?_⟩
      cases hpassing
      exact hclock
  | visit trigger nowMs topics dispatched total action broker hposition hinTopic hstep =>
      have hclock := (htimed.broker hstep).clock trigger nowMs topics dispatched hposition
      rw [hposition] at htimer
      refine ⟨(htimed.broker hstep).stocked, htimer, fun _ _ _ _ hpassing => ?_⟩
      cases hpassing
      exact hclock
  | endPass trigger nowMs dispatched hposition hround =>
      rw [hposition] at htimer
      exact htimed.move rfl htimer fun _ _ _ _ => Position.noConfusion
  | reset trigger dispatched hposition =>
      exact htimed.move rfl Timer.noConfusion fun _ _ _ _ => Position.noConfusion

/-- A running `dispatchTopic` can always take its next step; only the list of expired
keys needs memory. -/
theorem exists_step_inTopic {broker : Broker Index} {round : Round Index}
    (hround : broker.round = some round)
    (hroom : broker.queue.pending.length < pendingCapacity) :
    ∃ action next, inTopic action = true ∧
      Rounds.step lib backend broker action = some next := by
  obtain ⟨topic, nowMs, rest, hand, expiredKeys⟩ := round
  cases hand with
  | checked key msg =>
      exact ⟨.dispatch .sorted, _, rfl, by simp only [Rounds.step, hround]; rfl⟩
  | sent key => exact ⟨.track 0, _, rfl, by simp only [Rounds.step, hround]; rfl⟩
  | idle =>
      cases rest with
      | cons entry rest =>
          exact ⟨.check 0, _, rfl, by simp only [Rounds.step, hround]; rfl⟩
      | nil =>
          cases expiredKeys with
          | nil => exact ⟨.finish, _, rfl, by simp only [Rounds.step, hround]; rfl⟩
          | cons key keys =>
              have hjoin : RetryQueue.join pendingCapacity broker.queue.pending [key] =
                  some (broker.queue.pending ++ [key]) := if_pos hroom
              exact ⟨.expire, _, rfl, by
                simp only [Rounds.step, hround, Broker.enqueue, RetryQueue.step, hjoin]
                rfl⟩

/-- Until the context ends the loop or its timer can always move: it waits only with a
timer that runs or has fired, and inside a pass it waits for nobody. -/
theorem loop_never_stuck (bucketSize : TimeBucketSize) (inFlightTimeout : Duration)
    (startMs : Int64) {actions : List (Action Index)} {loop : Loop Index}
    (hrun : run (step lib backend interval)
      (.start interval bucketSize inFlightTimeout startMs) actions = some loop)
    (hreturned : loop.position ≠ .returned)
    (hroom : loop.broker.queue.pending.length < pendingCapacity) :
    ∃ action next, Action.own action = true ∧
      step lib backend interval loop action = some next := by
  have htimed : Timed loop := run_preserves
    (fun _ _ _ htimed hstep => htimed.effect (effect_of_step hstep))
    (timed_start bucketSize inFlightTimeout startMs) hrun
  have htimer := htimed.timer
  cases hposition : loop.position with
  | select =>
      rw [hposition] at htimer
      cases harmed : loop.timer with
      | armed delay => exact ⟨.fire, _, rfl, by simp only [step, harmed]; rfl⟩
      | fired =>
          exact ⟨.receiveTick, _, rfl, by simp only [step, hposition, harmed]; rfl⟩
      | stopped => exact absurd harmed htimer
  | woken => exact ⟨.stopTimer, _, rfl, by simp only [step, hposition]; rfl⟩
  | asking trigger =>
      cases hconsumers : loop.broker.hub.hasConsumers with
      | true =>
          exact ⟨.hasConsumers, _, rfl, by simp only [step, hposition, hconsumers]; rfl⟩
      | false =>
          exact ⟨.hasConsumers, _, rfl, by simp only [step, hposition, hconsumers]; rfl⟩
  | leading trigger =>
      exact ⟨.isLeader true, _, rfl, by simp only [step, hposition]; rfl⟩
  | listing trigger =>
      exact ⟨.activeTopics .sorted, _, rfl, by simp only [step, hposition]; rfl⟩
  | stamping trigger topics =>
      exact ⟨.now, _, rfl, by simp only [step, hposition]; rfl⟩
  | passing trigger nowMs topics dispatched =>
      cases hround : loop.broker.round with
      | some round =>
          have hmoves : ∃ action next, inTopic action = true ∧
              Rounds.step lib backend loop.broker action = some next :=
            exists_step_inTopic hround hroom
          obtain ⟨action, next, hinTopic, hstep⟩ := hmoves
          exact ⟨.visit action, _, rfl, by
            simp only [step, hposition, hinTopic, hstep]
            rfl⟩
      | none =>
          cases topics with
          | nil => exact ⟨.endPass, _, rfl, by simp only [step, hposition, hround]; rfl⟩
          | cons topic topics =>
              have hclock := htimed.clock _ _ _ _ hposition
              exact ⟨.beginTopic, _, rfl, by
                simp only [step, hposition, Rounds.step, hround, hclock]
                rfl⟩
  | resetting trigger dispatched =>
      exact ⟨.reset, _, rfl, by simp only [step, hposition]; rfl⟩
  | returned => exact absurd hposition hreturned

theorem loop_never_stuck_busy :
    ∃ loop, run (step orderLibraries .direct 100)
        (.start 100 ⟨0, valid_zero⟩ 30000000000 10) busyRegistration = some loop ∧
      ∃ action next, Action.own action = true ∧
        step orderLibraries .direct 100 loop action = some next := by
  have hexists : ∃ loop, run (step orderLibraries .direct 100)
      (.start 100 ⟨0, valid_zero⟩ 30000000000 10) busyRegistration = some loop ∧
        loop.position = .select ∧ loop.broker.queue.pending = [] :=
    exists_finish_of_any (by decide +kernel)
  obtain ⟨loop, hrun, hselect, hpending⟩ := hexists
  have hreturned : loop.position ≠ .returned := by
    rw [hselect]
    exact Position.noConfusion
  have hroom : loop.broker.queue.pending.length < pendingCapacity := by
    rw [hpending]
    decide
  exact ⟨loop, hrun, loop_never_stuck _ _ _ hrun hreturned hroom⟩

end FutureQ.DispatchLoop
