import FutureQ.Broker.Expiry

/-!
# The end of the process

A signal starts the shutdown: `WithGracefulShutdown` opens a window of ten seconds, hands
its context to the gRPC server through the app, cancels the context of every component and
waits for the wait group or for the end of the window, whichever comes first; then it
closes the NodeHost and the database.  Meanwhile the deleter makes a last flush, passes and
sweeps that have begun go on to their end, and the server waits for its open calls.

A `Process` is a broker with its janitor and these goroutines.  `database_closed_last` says
that inside the window nobody is left to use the closed database.
-/

namespace FutureQ.Shutdown

open FutureQ.ByteOrder
open FutureQ.GoRuntime
open FutureQ.OrderedStore
open FutureQ.RetryQueue
open FutureQ.Transition
open FutureQ.Storage
open FutureQ.Keys
open FutureQ.Repository
open FutureQ.StateMachine
open FutureQ.Deleter
open FutureQ.DueScan
open FutureQ.Consumers
open FutureQ.Dispatch
open FutureQ.Rounds
open FutureQ.Expiry (House)

variable {Index : Type}

/-- The goroutines that the wait group counts. -/
inductive Component where
  | metrics
  | deleter
  | dispatcher
  | janitor
  | grpc
  deriving DecidableEq, Repr

/-- Where `WithGracefulShutdown` stands; `graceful` is the case that its `select` took. -/
inductive Main where
  | listening
  | windowed
  | announced
  | selecting
  | leaving (graceful : Bool)
  | hostClosed (graceful : Bool)
  | done (graceful : Bool)
  deriving DecidableEq, Repr

/-- The context with the timeout of the shutdown. -/
inductive Window where
  | absent
  | running
  | expired
  deriving DecidableEq, Repr

/-- The gRPC server.  A `stopping` one is in `GracefulStop`, and `shutCtx` says whether the
context that `WaitForShutdown` read from the app had been set; otherwise it is nil. -/
inductive Server where
  | serving
  | stopping (shutCtx : Bool)
  | stopped (forced : Bool)
  deriving DecidableEq, Repr

/-- The flush that the deleter makes when its context has ended. -/
inductive LastFlush where
  | ahead
  | begun
  | accepted
  deriving DecidableEq, Repr

/-- `ctxDone` says that the context of the app is cancelled, `shutCtx` that `App.ShutCtx` is
set; `handlers` counts the calls that the server has open.  `faulted` is history: a step
has used the database after `Close`. -/
structure Process (Index : Type) where
  house : House Index
  main : Main
  window : Window
  shutCtx : Bool
  ctxDone : Bool
  wg : ℕ
  live : List Component
  server : Server
  handlers : ℕ
  lastFlush : LastFlush
  hostOpen : Bool
  dbOpen : Bool
  faulted : Bool

/-- The process when `startRun` calls `WithGracefulShutdown`; only a Raft node has a
NodeHost. -/
def Process.start (backend : Backend) (bucketSize : TimeBucketSize)
    (inFlightTimeout : Duration) (nowMs : Int64) : Process Index where
  house := .start bucketSize inFlightTimeout nowMs
  main := .listening
  window := .absent
  shutCtx := false
  ctxDone := false
  wg := 5
  live := [.metrics, .deleter, .dispatcher, .janitor, .grpc]
  server := .serving
  handlers := 0
  lastFlush := .ahead
  hostOpen := backend = .raft
  dbOpen := true
  faulted := false

/-- Whose goroutine takes a step.  `stream` are those of a consumer, which may outlive the
call they belong to, and the clock. -/
inductive Actor where
  | stream
  | handler
  | raft
  | component (component : Component)
  deriving DecidableEq, Repr

def actor : Expiry.Action Index → Actor
  | .broker (.tick _) | .broker (.receive _) | .broker (.ack _ _ _) => .stream
  | .broker (.publish _ _) | .broker (.register _) | .broker (.unregister _) => .handler
  | .broker (.apply _) | .broker (.applyLate _ _) => .raft
  | .broker (.begin _ _) | .broker (.check _) | .broker (.dispatch _)
  | .broker (.track _) | .broker .scanError | .broker .expire | .broker .finish =>
      .component .dispatcher
  | .broker .drain | .broker (.deleteKeys _) | .broker .reenqueue | .broker .notify =>
      .component .deleter
  | .readClock | .scan _ | .mark | .rest => .component .janitor

/-- The step reads or writes the database, or has an iterator over it.  A proposal that is
refused does not reach the database of a Raft node. -/
def touches (backend : Backend) : Expiry.Action Index → Bool
  | .broker (.publish _ _) | .broker (.apply _) | .broker (.applyLate _ _)
  | .broker (.begin _ _) | .broker (.check _) | .broker (.dispatch _)
  | .broker (.track _) | .broker .scanError | .scan _ => true
  | .broker (.deleteKeys proposal) => backend = .direct ∨ proposal ≠ .rejected
  | .broker (.tick _) | .broker (.receive _) | .broker (.ack _ _ _)
  | .broker (.register _) | .broker (.unregister _) | .broker .expire | .broker .finish
  | .broker .drain | .broker .reenqueue | .broker .notify
  | .readClock | .mark | .rest => false

/-- The goroutine exists; the loop of the deleter does not flush again after its last
flush, and a proposal is accepted only by a running NodeHost. -/
def Process.allows (backend : Backend) (process : Process Index)
    (action : Expiry.Action Index) : Bool :=
  (match actor action with
    | .stream => true
    | .handler => 0 < process.handlers
    | .raft => process.hostOpen
    | .component component => component ∈ process.live) &&
  match action with
  | .broker .drain => process.lastFlush = .ahead
  | .broker (.deleteKeys proposal) =>
      backend = .direct ∨ proposal = .rejected ∨ process.hostOpen
  | _ => true

/-- The function that the goroutine runs can return once its context has ended. -/
def Process.ready (process : Process Index) : Component → Prop
  | .metrics => True
  | .deleter => process.lastFlush ≠ .ahead ∧ process.house.broker.queue.phase = .idle
  | .dispatcher => process.house.broker.round.isNone
  | .janitor => process.house.janitor = .resting
  | .grpc => process.server = .stopped false ∨ process.server = .stopped true

instance instDecidableReady (process : Process Index) :
    (component : Component) → Decidable (process.ready component)
  | .metrics => isTrue trivial
  | .deleter => inferInstanceAs (Decidable (_ ∧ _))
  | .dispatcher => inferInstanceAs (Decidable (_ = true))
  | .janitor => inferInstanceAs (Decidable (_ = _))
  | .grpc => inferInstanceAs (Decidable (_ ∨ _))

/-- The case of the `select` of `WithGracefulShutdown` is ready: the wait group is done, or
the window is over. -/
def Process.selects (process : Process Index) : Bool → Bool
  | true => process.wg = 0
  | false => process.window = .expired

/-- The case of the `select` of `WaitForShutdown` is ready: the window is over, or the open
calls are. -/
def Process.halts (process : Process Index) : Bool → Bool
  | true => process.window = .expired
  | false => process.handlers = 0

/-- An answer of the backend decides the last flush. -/
def LastFlush.after (lastFlush : LastFlush) (phase : RetryQueue.Phase Bytes) : LastFlush :=
  match lastFlush, phase with
  | .begun, .notifying _ => .accepted
  | lastFlush, _ => lastFlush

/-- `enter` and `leave` are the beginning and the end of a call; `signal` to `closeDB` are
the steps of `WithGracefulShutdown` and `elapse` the end of its window; `stop` and
`stopped` are the steps of `WaitForShutdown`, and `exit` is `ComponentShutdownDone`. -/
inductive Action (Index : Type) where
  | house (action : Expiry.Action Index)
  | enter
  | leave
  | signal
  | announce
  | cancel
  | select (graceful : Bool)
  | closeHost
  | closeDB
  | elapse
  | lastFlush
  | stop
  | stopped (forced : Bool)
  | exit (component : Component)

def step (lib : Libraries Index) (backend : Backend) (process : Process Index) :
    Action Index → Option (Process Index)
  | .house action =>
      if process.allows backend action then
        (Expiry.step lib backend process.house action).map fun house =>
          -- a closed database panics and does nothing
          if touches backend action ∧ process.dbOpen = false then
            { process with faulted := true }
          else
            { process with
              house
              lastFlush := process.lastFlush.after house.broker.queue.phase }
      else none
  | .enter =>
      if process.server = .serving then
        some { process with handlers := process.handlers + 1 }
      else none
  | .leave =>
      if 0 < process.handlers then some { process with handlers := process.handlers - 1 }
      else none
  | .signal =>
      if process.main = .listening then
        some { process with main := .windowed, window := .running }
      else none
  | .announce =>
      if process.main = .windowed then
        some { process with main := .announced, shutCtx := true }
      else none
  | .cancel =>
      if process.main = .announced then
        some { process with main := .selecting, ctxDone := true }
      else none
  | .select graceful =>
      if process.main = .selecting ∧ process.selects graceful then
        some { process with main := .leaving graceful }
      else none
  | .closeHost =>
      match process.main with
      | .leaving graceful =>
          some { process with main := .hostClosed graceful, hostOpen := false }
      | _ => none
  | .closeDB =>
      match process.main with
      | .hostClosed graceful =>
          some { process with main := .done graceful, dbOpen := false }
      | _ => none
  | .elapse =>
      if process.window = .running then some { process with window := .expired } else none
  | .lastFlush =>
      if process.ctxDone ∧ .deleter ∈ process.live ∧ process.lastFlush = .ahead then
        (process.house.broker.enqueue .drain).map fun broker =>
          { process with
            house := { process.house with broker }
            -- a flush of nothing returns at once
            lastFlush :=
              if process.house.broker.queue.pending = [] then .accepted else .begun }
      else none
  | .stop =>
      if process.ctxDone ∧ .grpc ∈ process.live ∧ process.server = .serving then
        some { process with server := .stopping process.shutCtx }
      else none
  | .stopped forced =>
      -- with a nil context the select of the goroutine panics
      if .grpc ∈ process.live ∧ process.server = .stopping true ∧ process.halts forced then
        some { process with server := .stopped forced }
      else none
  | .exit component =>
      if process.ctxDone ∧ component ∈ process.live ∧ process.ready component then
        some { process with
          live := process.live.erase component
          wg := process.wg - 1 }
      else none

/-! ## Who changes what -/

section Frames

variable {lib : Libraries Index} {backend : Backend}

/-- Keys are marked at the end of the queue. -/
def Marks (before after : Queue Bytes) : Prop :=
  ∃ keys, after = { before with pending := before.pending ++ keys }

theorem Marks.refl (queue : Queue Bytes) : Marks queue queue :=
  ⟨[], by rw [List.append_nil]⟩

/-- Only the deleter takes keys out of its queue, and only the dispatcher is in a pass. -/
structure Frame (actor : Actor) (broker next : Broker Index) : Prop where
  queue : actor ≠ .component .deleter → Marks broker.queue next.queue
  round : actor ≠ .component .dispatcher → next.round = broker.round

theorem Frame.of_eq {actor : Actor} {broker next : Broker Index}
    (hqueue : next.queue = broker.queue) (hround : next.round = broker.round) :
    Frame actor broker next :=
  ⟨fun _ => hqueue ▸ .refl _, fun _ => hround⟩

theorem Frame.of_queue {broker next : Broker Index} (hqueue : next.queue = broker.queue) :
    Frame (.component .dispatcher) broker next :=
  ⟨fun _ => hqueue ▸ .refl _, fun hactor => absurd rfl hactor⟩

/-- A step that ends in a call of `MarkDeleted`. -/
theorem Frame.of_mark {actor : Actor} {broker marking next : Broker Index} {key : Bytes}
    (henqueue : marking.enqueue (.mark key) = some next)
    (hqueue : marking.queue = broker.queue)
    (hround : actor ≠ .component .dispatcher → marking.round = broker.round) :
    Frame actor broker next := by
  obtain ⟨queue, hstep, rfl⟩ := Option.map_eq_some_iff.mp henqueue
  rw [hqueue] at hstep
  cases RetryQueue.effect_of_step hstep with
  | mark item hroom => exact ⟨fun _ => ⟨[key], rfl⟩, hround⟩

/-- A step of `flush`. -/
theorem Frame.of_flush {broker flushing next : Broker Index}
    {event : RetryQueue.Event Bytes} (henqueue : flushing.enqueue event = some next)
    (hround : flushing.round = broker.round) :
    Frame (.component .deleter) broker next := by
  obtain ⟨queue, -, rfl⟩ := Option.map_eq_some_iff.mp henqueue
  exact ⟨fun hactor => absurd rfl hactor, fun _ => hround⟩

theorem queue_check (broker : Broker Index) (round : Round Index) (now : ℕ)
    (entry : Bytes × Bytes) (rest : List (Bytes × Bytes)) :
    (broker.check lib round now entry rest).queue = broker.queue := by
  rw [Broker.check]
  split <;> rfl

theorem frame_of_brokerStep {broker next : Broker Index} {action : Rounds.Action Index}
    (hstep : Rounds.step lib backend broker action = some next) :
    Frame (actor (.broker action)) broker next := by
  cases action with
  | tick nowMs =>
      simp only [Rounds.step] at hstep
      split_ifs at hstep
      cases hstep
      exact .of_eq rfl rfl
  | publish batch nowMs =>
      cases backend with
      | raft => cases hstep
      | direct =>
          cases hstep
          exact .of_eq rfl rfl
  | apply entry =>
      simp only [Rounds.step] at hstep
      split at hstep
      · cases hstep
        exact .of_eq rfl rfl
      · cases hstep
  | register consumer =>
      simp only [Rounds.step] at hstep
      split_ifs at hstep
      cases hstep
      exact .of_eq rfl rfl
  | unregister id =>
      cases hstep
      exact .of_eq rfl rfl
  | receive id =>
      cases hstep
      exact .of_eq rfl rfl
  | ack consumer deliveryTag success =>
      cases success with
      | false =>
          cases hstep
          exact .of_eq rfl rfl
      | true => exact .of_mark hstep rfl fun _ => rfl
  | begin topic nowMs =>
      simp only [Rounds.step] at hstep
      split at hstep
      · cases hstep
      · split_ifs at hstep
        cases hstep
        exact .of_queue rfl
  | check now =>
      simp only [Rounds.step] at hstep
      split at hstep
      · cases hstep
        exact .of_queue (queue_check ..)
      · cases hstep
  | dispatch order =>
      simp only [Rounds.step] at hstep
      split at hstep
      · cases hstep
        exact .of_queue rfl
      · cases hstep
  | track now =>
      simp only [Rounds.step] at hstep
      split at hstep
      · cases hstep
        exact .of_queue rfl
      · cases hstep
  | scanError =>
      simp only [Rounds.step] at hstep
      split at hstep
      · cases hstep
        exact .of_queue rfl
      · cases hstep
  | expire =>
      simp only [Rounds.step] at hstep
      split at hstep
      · exact .of_mark hstep rfl fun hactor => absurd rfl hactor
      · cases hstep
  | finish =>
      simp only [Rounds.step] at hstep
      split at hstep
      · cases hstep
        exact .of_queue rfl
      · cases hstep
  | drain => exact .of_flush hstep rfl
  | deleteKeys proposal =>
      simp only [Rounds.step] at hstep
      split at hstep
      · split at hstep
        · cases hstep
        · exact .of_flush hstep rfl
      · cases hstep
  | reenqueue => exact .of_flush hstep rfl
  | notify =>
      simp only [Rounds.step] at hstep
      split at hstep
      · exact .of_flush hstep rfl
      · cases hstep
  | applyLate position index =>
      simp only [Rounds.step] at hstep
      split at hstep
      · cases hstep
      · obtain ⟨deletion, -, rfl⟩ := Option.map_eq_some_iff.mp hstep
        exact .of_eq rfl rfl

/-- Steps of the house, with the janitor among the goroutines. -/
theorem frame_of_step {house next : House Index} {action : Expiry.Action Index}
    (hstep : Expiry.step lib backend house action = some next) :
    Frame (actor action) house.broker next.broker ∧
      (actor action ≠ .component .janitor → next.janitor = house.janitor) := by
  obtain ⟨broker, janitor⟩ := house
  cases action with
  | broker action =>
      obtain ⟨after, hafter, rfl⟩ := Option.map_eq_some_iff.mp hstep
      exact ⟨frame_of_brokerStep hafter, fun _ => rfl⟩
  | readClock =>
      cases janitor with
      | resting =>
          cases hstep
          exact ⟨.of_eq rfl rfl, fun hactor => absurd rfl hactor⟩
      | clocked nowMs => cases hstep
      | marking keys => cases hstep
  | scan fails =>
      cases janitor with
      | resting => cases hstep
      | clocked nowMs =>
          cases hstep
          exact ⟨.of_eq rfl rfl, fun hactor => absurd rfl hactor⟩
      | marking keys => cases hstep
  | mark =>
      match janitor, hstep with
      | .marking (key :: keys), hstep =>
          obtain ⟨marked, hmarked, rfl⟩ := Option.map_eq_some_iff.mp hstep
          exact ⟨.of_mark hmarked rfl fun _ => rfl, fun hactor => absurd rfl hactor⟩
  | rest =>
      match janitor, hstep with
      | .marking [], hstep =>
          cases hstep
          exact ⟨.of_eq rfl rfl, fun hactor => absurd rfl hactor⟩

end Frames

/-! ## The order of the shutdown -/

/-- How many steps of `WithGracefulShutdown` are behind it. -/
def Main.rank : Main → ℕ
  | .listening => 0
  | .windowed => 1
  | .announced => 2
  | .selecting => 3
  | .leaving _ => 4
  | .hostClosed _ => 5
  | .done _ => 6

/-- `rested` and `waited` carry the argument: a goroutine that has returned has left nothing
half done, and behind the `select` all have returned or the window is over. -/
structure Sound (process : Process Index) : Prop where
  counted : process.wg = process.live.length
  window : process.window = .absent ↔ process.main = .listening
  shutCtx : process.shutCtx = true ↔ 2 ≤ process.main.rank
  ctxDone : process.ctxDone = true ↔ 3 ≤ process.main.rank
  waited : 4 ≤ process.main.rank → process.window = .expired ∨ process.live = []
  hostOpen : 5 ≤ process.main.rank → process.hostOpen = false
  dbOpen : process.dbOpen = false ↔ 6 ≤ process.main.rank
  rested : ∀ component ∉ process.live, process.ready component
  server : process.server ≠ .stopping false
  forced : process.server = .stopped true → process.window = .expired
  drained : process.server = .stopped false → process.handlers = 0
  faulted : process.faulted = true → process.window = .expired
  flushed : process.lastFlush ≠ .ahead → process.ctxDone = true

section Sound

variable {lib : Libraries Index} {backend : Backend} {process next : Process Index}

theorem sound_start (backend : Backend) (bucketSize : TimeBucketSize)
    (inFlightTimeout : Duration) (nowMs : Int64) :
    Sound (Process.start backend bucketSize inFlightTimeout nowMs : Process Index) where
  counted := rfl
  window := by simp [Process.start]
  shutCtx := by simp [Process.start, Main.rank]
  ctxDone := by simp [Process.start, Main.rank]
  waited hrank := by simp [Process.start, Main.rank] at hrank
  hostOpen hrank := by simp [Process.start, Main.rank] at hrank
  dbOpen := by simp [Process.start, Main.rank]
  rested component hgone := by
    cases component <;> exact absurd (by simp [Process.start]) hgone
  server := by simp [Process.start]
  forced hforced := by cases hforced
  drained hdrained := by cases hdrained
  faulted hfaulted := by cases hfaulted
  flushed hflushed := absurd rfl hflushed

/-- Behind the `select` and inside the window, no call is open. -/
theorem Sound.quiet (hsound : Sound process) (hwindow : process.window ≠ .expired)
    (hrank : 4 ≤ process.main.rank) : process.live = [] ∧ process.handlers = 0 := by
  have hlive : process.live = [] := (hsound.waited hrank).resolve_left hwindow
  have hgone : Component.grpc ∉ process.live := hlive ▸ List.not_mem_nil
  refine ⟨hlive, ?_⟩
  rcases hsound.rested .grpc hgone with hdrained | hforced
  · exact hsound.drained hdrained
  · exact absurd (hsound.forced hforced) hwindow

/-- A component whose goroutine has returned takes no step. -/
theorem actor_ne_of_allows {action : Expiry.Action Index} {component : Component}
    (hallows : process.allows backend action = true) (hgone : component ∉ process.live) :
    actor action ≠ .component component := by
  intro hactor
  simp only [Process.allows, hactor, Bool.and_eq_true, decide_eq_true_eq] at hallows
  exact hgone hallows.1

/-- The goroutines of a stream work in memory. -/
theorem touches_of_stream {action : Expiry.Action Index} (hactor : actor action = .stream) :
    touches backend action = false := by
  cases action with
  | broker action => cases action <;> first | rfl | cases hactor
  | readClock => rfl
  | scan fails => cases hactor
  | mark => rfl
  | rest => rfl

/-- Only the end of the window lets anybody use a closed database. -/
theorem Sound.expired_of_touches (hsound : Sound process) {action : Expiry.Action Index}
    (hallows : process.allows backend action = true)
    (htouches : touches backend action = true) (hclosed : process.dbOpen = false) :
    process.window = .expired := by
  by_contra hwindow
  have hrank := hsound.dbOpen.mp hclosed
  obtain ⟨hlive, hhandlers⟩ := hsound.quiet hwindow (by omega)
  have hhost := hsound.hostOpen (by omega)
  have hgone : ∀ component, component ∉ process.live := fun _ => hlive ▸ List.not_mem_nil
  cases hactor : actor action with
  | stream =>
      have hmemory : touches backend action = false := touches_of_stream hactor
      rw [hmemory] at htouches
      cases htouches
  | handler => simp [Process.allows, hactor, hhandlers] at hallows
  | raft => simp [Process.allows, hactor, hhost] at hallows
  | component component => exact actor_ne_of_allows hallows (hgone component) hactor

theorem after_eq_ahead_iff {lastFlush : LastFlush} {phase : RetryQueue.Phase Bytes} :
    lastFlush.after phase = .ahead ↔ lastFlush = .ahead := by
  unfold LastFlush.after
  split
  · simp
  · rfl

/-- What a returned goroutine left behind stays as it is while others go on. -/
theorem ready_of_house {house : House Index} {action : Expiry.Action Index}
    {component : Component} (hready : process.ready component)
    (hactor : actor action ≠ .component component)
    (hstep : Expiry.step lib backend process.house action = some house) :
    Process.ready { process with
      house, lastFlush := process.lastFlush.after house.broker.queue.phase } component := by
  obtain ⟨hframe, hjanitor⟩ := frame_of_step hstep
  cases component with
  | metrics => trivial
  | deleter =>
      obtain ⟨keys, hqueue⟩ := hframe.queue hactor
      have hphase : house.broker.queue.phase = process.house.broker.queue.phase := by
        rw [hqueue]
      exact ⟨fun hahead => hready.1 (after_eq_ahead_iff.mp hahead), hphase.trans hready.2⟩
  | dispatcher => exact (congrArg Option.isNone (hframe.round hactor)).trans hready
  | janitor => exact (hjanitor hactor).trans hready
  | grpc => exact hready

/-- Moves of the server matter to nobody but the goroutine that makes them. -/
theorem Sound.rested_of_server (hsound : Sound process) {server : Server}
    {component : Component} (hlive : .grpc ∈ process.live)
    (hgone : component ∉ process.live) :
    Process.ready { process with server } component := by
  have hready := hsound.rested component hgone
  cases component with
  | grpc => exact absurd hlive hgone
  | metrics => trivial
  | deleter => exact hready
  | dispatcher => exact hready
  | janitor => exact hready

/-- The two cases of the `select`. -/
theorem Sound.expired_or_returned (hsound : Sound process) {graceful : Bool}
    (hcase : process.selects graceful = true) :
    process.window = .expired ∨ process.live = [] := by
  cases graceful with
  | false => exact .inl (of_decide_eq_true hcase)
  | true =>
      have hcount : process.wg = 0 := of_decide_eq_true hcase
      exact .inr (List.length_eq_zero_iff.mp (hsound.counted.symm.trans hcount))

theorem rank_eq_zero_iff {main : Main} : main.rank = 0 ↔ main = .listening := by
  cases main <;> simp [Main.rank]

/-- What `WithGracefulShutdown` sets on its way to its next position. -/
def Process.advance (process : Process Index) (main : Main) : Process Index :=
  { process with
    main
    window := if main.rank = 1 then .running else process.window
    shutCtx := process.shutCtx || main.rank = 2
    ctxDone := process.ctxDone || main.rank = 3
    hostOpen := process.hostOpen && main.rank ≠ 5
    dbOpen := process.dbOpen && main.rank ≠ 6 }

/-- The steps of `WithGracefulShutdown`. -/
def Action.ofMain : Action Index → Bool
  | .signal | .announce | .cancel | .select _ | .closeHost | .closeDB => true
  | _ => false

/-- Each leads to the next position, and only the `select` has to wait for something. -/
theorem advance_of_step {action : Action Index} (hofMain : action.ofMain = true)
    (hstep : Shutdown.step lib backend process action = some next) :
    ∃ main, next = process.advance main ∧ main.rank = process.main.rank + 1 ∧
      (main.rank = 4 → ∃ graceful, process.selects graceful = true) := by
  cases action with
  | signal =>
      simp only [Shutdown.step] at hstep
      split_ifs at hstep with hmain
      cases hstep
      exact ⟨.windowed, by simp [Process.advance, Main.rank], by rw [hmain]; rfl,
        by simp [Main.rank]⟩
  | announce =>
      simp only [Shutdown.step] at hstep
      split_ifs at hstep with hmain
      cases hstep
      exact ⟨.announced, by simp [Process.advance, Main.rank], by rw [hmain]; rfl,
        by simp [Main.rank]⟩
  | cancel =>
      simp only [Shutdown.step] at hstep
      split_ifs at hstep with hmain
      cases hstep
      exact ⟨.selecting, by simp [Process.advance, Main.rank], by rw [hmain]; rfl,
        by simp [Main.rank]⟩
  | select graceful =>
      simp only [Shutdown.step] at hstep
      split_ifs at hstep with hguard
      cases hstep
      exact ⟨.leaving graceful, by simp [Process.advance, Main.rank],
        by rw [hguard.1]; rfl, fun _ => ⟨graceful, hguard.2⟩⟩
  | closeHost =>
      simp only [Shutdown.step] at hstep
      split at hstep
      · rename_i graceful hmain
        cases hstep
        exact ⟨.hostClosed graceful, by simp [Process.advance, Main.rank],
          by rw [hmain]; rfl, by simp [Main.rank]⟩
      · cases hstep
  | closeDB =>
      simp only [Shutdown.step] at hstep
      split at hstep
      · rename_i graceful hmain
        cases hstep
        exact ⟨.done graceful, by simp [Process.advance, Main.rank], by rw [hmain]; rfl,
          by simp [Main.rank]⟩
      · cases hstep
  | _ => cases hofMain

/-- The window is opened once, by the first step. -/
theorem Sound.expired_advance (hsound : Sound process) {main : Main}
    (hrank : main.rank = process.main.rank + 1) (hexpired : process.window = .expired) :
    (process.advance main).window = .expired := by
  have hopened : process.main ≠ .listening := fun hlistening => by
    rw [hsound.window.mpr hlistening] at hexpired
    cases hexpired
  have hlater : main.rank ≠ 1 := fun hfirst =>
    hopened (rank_eq_zero_iff.mp (by omega))
  simp only [Process.advance, if_neg hlater, hexpired]

/-- One step of `WithGracefulShutdown`. -/
theorem Sound.advance (hsound : Sound process) {main : Main}
    (hrank : main.rank = process.main.rank + 1)
    (hwaited : main.rank = 4 → process.window = .expired ∨ process.live = []) :
    Sound (process.advance main) := by
  have hshutCtx := hsound.shutCtx
  have hctxDone := hsound.ctxDone
  have hdbOpen := hsound.dbOpen
  refine { hsound with
    window := ?_
    shutCtx := ?_
    ctxDone := ?_
    waited := fun hpast => ?_
    hostOpen := fun hpast => ?_
    dbOpen := ?_
    forced := fun hforced => hsound.expired_advance hrank (hsound.forced hforced)
    faulted := fun hfaulted => hsound.expired_advance hrank (hsound.faulted hfaulted)
    flushed := fun hflushed => ?_ }
  · have hmain : (process.advance main).main ≠ .listening := fun hlistening => by
      have hzero : main.rank = 0 := rank_eq_zero_iff.mpr hlistening
      omega
    refine iff_of_false (fun habsent => ?_) hmain
    simp only [Process.advance] at habsent
    split_ifs at habsent with hfirst
    have hzero := rank_eq_zero_iff.mpr (hsound.window.mp habsent)
    omega
  · simp only [Process.advance, Bool.or_eq_true, decide_eq_true_eq, hshutCtx]
    omega
  · simp only [Process.advance, Bool.or_eq_true, decide_eq_true_eq, hctxDone]
    omega
  · have hcases : process.window = .expired ∨ process.live = [] := by
      by_cases hselect : main.rank = 4
      · exact hwaited hselect
      · have hbehind : 4 ≤ main.rank := hpast
        exact hsound.waited (by omega)
    exact hcases.imp_left (hsound.expired_advance hrank)
  · by_cases hcloses : main.rank = 5
    · simp [Process.advance, hcloses]
    · have hbehind : 5 ≤ main.rank := hpast
      simp [Process.advance, hsound.hostOpen (by omega)]
  · simp only [Process.advance, Bool.and_eq_false_iff, decide_eq_false_iff_not, not_not,
      hdbOpen]
    omega
  · simp [Process.advance, hsound.flushed hflushed]

/-- The last flush changes nothing that a returned goroutine left behind. -/
theorem Sound.rested_of_lastFlush (hsound : Sound process) {broker : Broker Index}
    (hdrain : process.house.broker.enqueue .drain = some broker) {lastFlush : LastFlush}
    {component : Component} (hlive : .deleter ∈ process.live)
    (hgone : component ∉ process.live) :
    Process.ready { process with
      house := { process.house with broker }, lastFlush } component := by
  have hframe : Frame (.component .deleter) process.house.broker broker :=
    .of_flush hdrain rfl
  have hready := hsound.rested component hgone
  cases component with
  | metrics => trivial
  | deleter => exact absurd hlive hgone
  | dispatcher => exact (congrArg Option.isNone (hframe.round (by simp))).trans hready
  | janitor => exact hready
  | grpc => exact hready

/-- A step of the broker or of the janitor. -/
theorem Sound.house (hsound : Sound process) {action : Expiry.Action Index}
    (hstep : Shutdown.step lib backend process (.house action) = some next) : Sound next := by
  simp only [Shutdown.step] at hstep
  split_ifs at hstep with hallows hfault
  · obtain ⟨house, hhouse, rfl⟩ := Option.map_eq_some_iff.mp hstep
    exact { hsound with
      faulted := fun _ => hsound.expired_of_touches hallows hfault.1 hfault.2 }
  · obtain ⟨house, hhouse, rfl⟩ := Option.map_eq_some_iff.mp hstep
    exact { hsound with
      rested := fun component hgone => ready_of_house (hsound.rested component hgone)
        (actor_ne_of_allows hallows hgone) hhouse
      flushed := fun hflushed => hsound.flushed fun hahead =>
        hflushed (after_eq_ahead_iff.mpr hahead) }

/-- The end of a goroutine. -/
theorem Sound.exit (hsound : Sound process) {component : Component}
    (hstep : Shutdown.step lib backend process (.exit component) = some next) :
    Sound next := by
  simp only [Shutdown.step] at hstep
  split_ifs at hstep with hguard
  cases hstep
  have hlength : process.wg - 1 = (process.live.erase component).length := by
    rw [List.length_erase_of_mem hguard.2.1, hsound.counted]
  refine { hsound with
    counted := hlength
    waited := fun hrank => (hsound.waited hrank).imp_right fun hlive => by rw [hlive]; rfl
    rested := fun other hgone => ?_ }
  by_cases hsame : other = component
  · exact hsame ▸ hguard.2.2
  · exact hsound.rested other fun hlive =>
      hgone ((List.mem_erase_of_ne hsame).mpr hlive)

theorem Sound.step (hsound : Sound process) {action : Action Index}
    (hstep : Shutdown.step lib backend process action = some next) : Sound next := by
  have hwindow := hsound.window
  cases action with
  | house action => exact hsound.house hstep
  | enter =>
      simp only [Shutdown.step] at hstep
      split_ifs at hstep with hserving
      cases hstep
      exact { hsound with
        drained := fun hdrained => by cases hserving.symm.trans hdrained }
  | leave =>
      simp only [Shutdown.step] at hstep
      split_ifs at hstep
      cases hstep
      have hdrained : process.server = .stopped false → process.handlers - 1 = 0 :=
        fun hstopped => by rw [hsound.drained hstopped]
      exact { hsound with drained := hdrained }
  | signal | announce | cancel | select | closeHost | closeDB =>
      obtain ⟨main, rfl, hrank, hselect⟩ := advance_of_step rfl hstep
      refine hsound.advance hrank fun hbehind => ?_
      obtain ⟨graceful, hcase⟩ := hselect hbehind
      exact hsound.expired_or_returned hcase
  | elapse =>
      simp only [Shutdown.step] at hstep
      split_ifs at hstep with hrunning
      cases hstep
      rw [hrunning] at hwindow
      exact { hsound with
        window := by simpa using hwindow
        waited := fun _ => .inl rfl
        forced := fun _ => rfl
        faulted := fun _ => rfl }
  | lastFlush =>
      simp only [Shutdown.step] at hstep
      split at hstep
      · rename_i hguard
        obtain ⟨broker, hdrain, rfl⟩ := Option.map_eq_some_iff.mp hstep
        exact { hsound with
          rested := fun component hgone =>
            hsound.rested_of_lastFlush hdrain hguard.2.1 hgone
          flushed := fun _ => hguard.1 }
      · cases hstep
  | stop =>
      simp only [Shutdown.step] at hstep
      split_ifs at hstep with hguard
      cases hstep
      -- the context of the window was handed over before this one was cancelled
      have hset : process.shutCtx = true := by
        have hrank := hsound.ctxDone.mp hguard.1
        exact hsound.shutCtx.mpr (by omega)
      exact { hsound with
        rested := fun component hgone => hsound.rested_of_server hguard.2.1 hgone
        server := by simp [hset]
        forced := by simp
        drained := by simp }
  | stopped forced =>
      simp only [Shutdown.step] at hstep
      split_ifs at hstep with hguard
      cases hstep
      exact { hsound with
        rested := fun component hgone => hsound.rested_of_server hguard.1 hgone
        server := by simp
        forced := fun hforced => by
          cases hforced
          exact of_decide_eq_true hguard.2.2
        drained := fun hdrained => by
          cases hdrained
          exact of_decide_eq_true hguard.2.2 }
  | exit component => exact hsound.exit hstep

theorem sound_run (lib : Libraries Index) (backend : Backend) (bucketSize : TimeBucketSize)
    (inFlightTimeout : Duration) (startMs : Int64) {actions : List (Action Index)}
    (hrun : run (Shutdown.step lib backend)
      (.start backend bucketSize inFlightTimeout startMs) actions = some process) :
    Sound process :=
  run_preserves (fun _ _ _ hsound hstep => hsound.step hstep)
    (sound_start backend bucketSize inFlightTimeout startMs) hrun

end Sound

/-- The gRPC goroutine never waits on a nil context, and as long as the window is not over
the closed database is not used: it is closed behind the last call and the NodeHost, when
every goroutine has returned with nothing half done. -/
theorem database_closed_last (lib : Libraries Index) (backend : Backend)
    (bucketSize : TimeBucketSize) (inFlightTimeout : Duration) (startMs : Int64)
    {actions : List (Action Index)} {process : Process Index}
    (hrun : run (step lib backend) (.start backend bucketSize inFlightTimeout startMs)
      actions = some process) :
    process.server ≠ .stopping false ∧
      (process.window ≠ .expired → process.faulted = false ∧
        (process.dbOpen = false → process.handlers = 0 ∧ process.hostOpen = false ∧
          process.live = [] ∧ ∀ component, process.ready component)) := by
  have hsound := sound_run lib backend bucketSize inFlightTimeout startMs hrun
  refine ⟨hsound.server, fun hwindow => ⟨?_, fun hclosed => ?_⟩⟩
  · exact Bool.eq_false_of_not_eq_true fun hfaulted => hwindow (hsound.faulted hfaulted)
  · have hrank := hsound.dbOpen.mp hclosed
    obtain ⟨hlive, hhandlers⟩ := hsound.quiet hwindow (by omega)
    exact ⟨hhandlers, hsound.hostOpen (by omega), hlive, fun component =>
      hsound.rested component (hlive ▸ List.not_mem_nil)⟩

/-- An order is published and sent to a consumer. -/
def serveOrder : List (Action Bytes) :=
  [.enter, .house (.broker (.register ⟨"c1", "orders", ""⟩)), .house (.broker publishOrder),
    .house (.broker (.begin "orders" 10)), .house (.broker (.check 0)),
    .house (.broker (.dispatch .sorted)), .house (.broker (.track 0)),
    .house (.broker .finish)]

/-- The signal arrives while the janitor sweeps; the last flush deletes what the consumer
acknowledged just before, and the consumer leaves when the server asks for it. -/
def stopInTime : List (Action Bytes) :=
  [.house .readClock, .signal, .announce,
    .house (.broker (.ack ⟨"c1", "orders", ""⟩ orderKey true)), .cancel, .lastFlush, .stop,
    .house (.scan false), .house (.broker (.deleteKeys (.accepted 1))), .exit .dispatcher,
    .house .rest, .exit .janitor, .house (.broker .notify), .exit .deleter, .exit .metrics,
    .house (.broker (.unregister "c1")), .leave, .stopped false, .exit .grpc, .select true,
    .closeHost, .closeDB]

theorem database_closed_last_inTime :
    ∃ process, run (step orderLibraries .direct)
        (.start .direct ⟨0, valid_zero⟩ 30000000000 10) (serveOrder ++ stopInTime) =
          some process ∧
      process.dbOpen = false ∧ process.faulted = false ∧ process.handlers = 0 ∧
      ∀ component, process.ready component := by
  obtain ⟨process, hrun, hwindow, hclosed⟩ :
      ∃ process, run (step orderLibraries .direct)
        (.start .direct ⟨0, valid_zero⟩ 30000000000 10) (serveOrder ++ stopInTime) =
          some process ∧ process.window ≠ .expired ∧ process.dbOpen = false :=
    exists_finish_of_any (by decide +kernel)
  obtain ⟨-, hinside⟩ := database_closed_last orderLibraries .direct _ _ _ hrun
  obtain ⟨hsafe, hshut⟩ := hinside hwindow
  obtain ⟨hhandlers, -, -, hready⟩ := hshut hclosed
  exact ⟨process, hrun, hclosed, hsafe, hhandlers, hready⟩

/-- Behind the window the database is closed under the feet of a sweep. -/
example : (run (step orderLibraries .direct)
    (.start .direct ⟨0, valid_zero⟩ 30000000000 10)
    [.house .readClock, .signal, .announce, .cancel, .elapse, .select false, .closeHost,
      .closeDB, .house (.scan false)]).map Process.faulted = some true := by
  decide +kernel

end FutureQ.Shutdown
