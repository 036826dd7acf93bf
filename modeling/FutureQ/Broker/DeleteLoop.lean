import FutureQ.Broker.Deleter

/-!
# The loop of the deleter

Any number of goroutines call `MarkDeleted` while the one goroutine of `Run`
flushes.  Both sides take the mutex only for a moment: to append a key, to take
the pending keys away, to put a failed batch back in front.  Between these
moments the backend works on a batch or the callbacks run, and keys keep
arriving.  The backend may answer anything.
-/

namespace FutureQ.DeleteLoop

open FutureQ.ByteOrder
open FutureQ.RetryQueue
open FutureQ.Transition
open FutureQ.Deleter

/-- The deleter with the place of its goroutine in `flush`; `cancelled` says that
`Run` has seen its context end and makes its last flush. -/
structure Loop where
  queue : Queue Bytes
  cancelled : Bool
  deriving DecidableEq, Repr

/-- `NewDeleter`, with `Run` waiting for its first tick. -/
def newDeleter : Loop := ⟨.empty, false⟩

/-- `markDeleted` is a call of any goroutine when it holds the mutex; `tick` and
`cancel` enter `flush` from either case of `Run`; `deleteKeys` is the answer of
the backend, `reenqueue` the retry, `onDelete` one callback. -/
inductive Action where
  | markDeleted (key : Bytes)
  | tick
  | cancel
  | deleteKeys (accepted : Bool)
  | reenqueue
  | onDelete
  deriving DecidableEq, Repr

def Loop.move (loop : Loop) (event : Event Bytes) : Option Loop :=
  (RetryQueue.step pendingCapacity loop.queue event).map fun queue =>
    { loop with queue }

/-- `none` is an action that is not enabled, or an `append` beyond the memory. -/
def step (loop : Loop) : Action → Option Loop
  | .markDeleted key => loop.move (.mark key)
  | .tick => if loop.cancelled then none else loop.move .drain
  | .cancel =>
      if loop.cancelled then none else Loop.move { loop with cancelled := true } .drain
  | .deleteKeys accepted => loop.move (.returned accepted)
  | .reenqueue => loop.move .reenqueue
  | .onDelete => loop.move .notify

/-- The key that an action marks. -/
@[simp]
def Action.marked : Action → List Bytes
  | .markDeleted key => [key]
  | .tick => []
  | .cancel => []
  | .deleteKeys _ => []
  | .reenqueue => []
  | .onDelete => []

/-- Every action is one event of the queue. -/
theorem step_queue {loop next : Loop} {action : Action}
    (hstep : step loop action = some next) :
    ∃ event, RetryQueue.step pendingCapacity loop.queue event = some next.queue ∧
      event.marks = action.marked := by
  have hmove : ∀ {event : Event Bytes} {cancelled : Bool},
      Loop.move { loop with cancelled } event = some next →
        RetryQueue.step pendingCapacity loop.queue event = some next.queue := by
    intro event cancelled hevent
    obtain ⟨queue, hqueue, rfl⟩ := Option.map_eq_some_iff.mp hevent
    exact hqueue
  cases action with
  | markDeleted key => exact ⟨_, hmove hstep, rfl⟩
  | tick =>
      simp only [step] at hstep
      split_ifs at hstep
      exact ⟨_, hmove hstep, rfl⟩
  | cancel =>
      simp only [step] at hstep
      split_ifs at hstep
      exact ⟨_, hmove hstep, rfl⟩
  | deleteKeys accepted => exact ⟨_, hmove hstep, rfl⟩
  | reenqueue => exact ⟨_, hmove hstep, rfl⟩
  | onDelete => exact ⟨_, hmove hstep, rfl⟩

/-- What was marked is deleted, in hand or pending, and what was deleted is
reported or about to be. -/
structure Conserves (marked : List Bytes) (loop : Loop) : Prop where
  ledger : loop.queue.ledger = marked
  reports : loop.queue.notified ++ loop.queue.phase.unreported =
    loop.queue.settled.flatten

theorem conserves_newDeleter : Conserves [] newDeleter := ⟨rfl, rfl⟩

theorem Conserves.step {marked : List Bytes} {loop next : Loop} {action : Action}
    (hconserves : Conserves marked loop)
    (hstep : DeleteLoop.step loop action = some next) :
    Conserves (marked ++ action.marked) next := by
  obtain ⟨event, hevent, hmarks⟩ := step_queue hstep
  refine ⟨?_, notified_step hconserves.reports hevent⟩
  rw [ledger_step hevent, hconserves.ledger, hmarks]

/-- In every interleaving, at every moment, the deleted batches, the batch in hand
and the pending keys are the marked keys in the order of their marks, and the
callbacks made and still to be made for the deleted batches are their keys. -/
theorem deleter_conserves_marks {actions : List Action} {finish : Loop}
    (hrun : run step newDeleter actions = some finish) :
    finish.queue.settled.flatten ++ finish.queue.phase.inHand ++
        finish.queue.pending = actions.flatMap Action.marked ∧
      finish.queue.notified ++ finish.queue.phase.unreported =
        finish.queue.settled.flatten := by
  have hfinish : Conserves ([] ++ actions.flatMap Action.marked) finish :=
    run_collects (fun _ _ _ _ hconserves hstep => hconserves.step hstep)
      conserves_newDeleter hrun
  exact ⟨hfinish.ledger, hfinish.reports⟩

/-- A batch of two keys fails and goes back in front of a key marked meanwhile; the
next flush succeeds and has made one of its callbacks. -/
theorem deleter_conserves_marks_retried :
    ∃ finish, run step newDeleter [.markDeleted [1], .markDeleted [2], .tick,
        .markDeleted [1], .deleteKeys false, .reenqueue, .tick, .deleteKeys true,
        .onDelete, .markDeleted [3]] = some finish ∧
      finish.queue.settled.flatten ++ finish.queue.phase.inHand ++
        finish.queue.pending = [[1], [2], [1], [3]] ∧
      finish.queue.notified = [[1]] ∧
      finish.queue.notified ++ finish.queue.phase.unreported =
        finish.queue.settled.flatten := by
  obtain ⟨finish, hrun, hnotified⟩ :
      ∃ finish, run step newDeleter [.markDeleted [1], .markDeleted [2], .tick,
        .markDeleted [1], .deleteKeys false, .reenqueue, .tick, .deleteKeys true,
        .onDelete, .markDeleted [3]] = some finish ∧
        finish.queue.notified = [[1]] :=
    exists_finish_of_any (by decide +kernel)
  obtain ⟨hledger, hreports⟩ := deleter_conserves_marks hrun
  exact ⟨finish, hrun, hledger, hnotified, hreports⟩

end FutureQ.DeleteLoop
