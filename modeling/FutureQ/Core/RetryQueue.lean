import FutureQ.Core.Transition

/-!
# Queues that hand over batches and retry them

Producers append items to `pending`.  A single worker drains everything that is
pending into a batch and hands the batch over.  A batch that is refused goes
back in front of what arrived meanwhile; a batch that is accepted is settled
and its items are reported one by one.  `settled` and `notified` are history.
The ledger reads settled batches, the batch in hand and the pending items from
left to right; no step but `mark` changes it.
-/

namespace FutureQ.RetryQueue

open FutureQ.Transition

variable {α : Type*}

inductive Phase (α : Type*) where
  | idle
  | working (batch : List α)
  | failed (batch : List α)
  | notifying (items : List α)
  deriving DecidableEq, Repr

structure Queue (α : Type*) where
  pending : List α
  phase : Phase α
  settled : List (List α)
  notified : List α
  deriving DecidableEq, Repr

def Queue.empty : Queue α := ⟨[], .idle, [], []⟩

inductive Event (α : Type*) where
  | mark (item : α)
  | drain
  | returned (accepted : Bool)
  | reenqueue
  | notify
  deriving DecidableEq, Repr

/-- Concatenation in a memory that holds at most `capacity` items per list. -/
def join (capacity : ℕ) (left right : List α) : Option (List α) :=
  if left.length + right.length ≤ capacity then some (left ++ right) else none

def step (capacity : ℕ) (queue : Queue α) : Event α → Option (Queue α)
  | .mark item =>
      (join capacity queue.pending [item]).map fun pending => { queue with pending }
  | .drain =>
      match queue.phase with
      | .idle =>
          match queue.pending with
          | [] => some queue
          | item :: items =>
              some { queue with pending := [], phase := .working (item :: items) }
      | _ => none
  | .returned accepted =>
      match queue.phase with
      | .working batch =>
          if accepted then
            some { queue with
              phase := .notifying batch
              settled := queue.settled ++ [batch] }
          else some { queue with phase := .failed batch }
      | _ => none
  | .reenqueue =>
      match queue.phase with
      | .failed batch =>
          (join capacity batch queue.pending).map fun pending =>
            { queue with pending, phase := .idle }
      | _ => none
  | .notify =>
      match queue.phase with
      | .notifying [item] =>
          some { queue with phase := .idle, notified := queue.notified ++ [item] }
      | .notifying (item :: items) =>
          some { queue with
            phase := .notifying items
            notified := queue.notified ++ [item] }
      | _ => none

/-- The items of a batch whose outcome is open or negative. -/
@[simp]
def Phase.inHand : Phase α → List α
  | .idle => []
  | .working batch => batch
  | .failed batch => batch
  | .notifying _ => []

@[simp]
def Phase.unreported : Phase α → List α
  | .idle => []
  | .working _ => []
  | .failed _ => []
  | .notifying items => items

@[simp]
def Event.marks : Event α → List α
  | .mark item => [item]
  | .drain => []
  | .returned _ => []
  | .reenqueue => []
  | .notify => []

def Queue.ledger (queue : Queue α) : List α :=
  queue.settled.flatten ++ queue.phase.inHand ++ queue.pending

/-- Items that have been marked and whose deletion has not been accepted. -/
def Queue.waiting (queue : Queue α) : List α :=
  queue.phase.inHand ++ queue.pending

theorem join_eq_some {capacity : ℕ} {left right both : List α}
    (hjoin : join capacity left right = some both) :
    both = left ++ right ∧ both.length ≤ capacity := by
  rw [join] at hjoin
  split at hjoin
  · cases hjoin
    exact ⟨rfl, by simpa using ‹_›⟩
  · cases hjoin

/-- What an event does to a queue. -/
inductive Effect (capacity : ℕ) (queue : Queue α) : Event α → Queue α → Prop where
  | mark (item : α) (hroom : (queue.pending ++ [item]).length ≤ capacity) :
      Effect capacity queue (.mark item)
        { queue with pending := queue.pending ++ [item] }
  | rest (hidle : queue.phase = .idle) (hempty : queue.pending = []) :
      Effect capacity queue .drain queue
  | drain (hidle : queue.phase = .idle) (hpending : queue.pending ≠ []) :
      Effect capacity queue .drain
        { queue with pending := [], phase := .working queue.pending }
  | accept (batch : List α) (hworking : queue.phase = .working batch) :
      Effect capacity queue (.returned true)
        { queue with
          phase := .notifying batch
          settled := queue.settled ++ [batch] }
  | refuse (batch : List α) (hworking : queue.phase = .working batch) :
      Effect capacity queue (.returned false) { queue with phase := .failed batch }
  | reenqueue (batch : List α) (hfailed : queue.phase = .failed batch)
      (hroom : (batch ++ queue.pending).length ≤ capacity) :
      Effect capacity queue .reenqueue
        { queue with pending := batch ++ queue.pending, phase := .idle }
  | notify (item : α) (items : List α)
      (hnotifying : queue.phase = .notifying (item :: items)) :
      Effect capacity queue .notify
        { queue with
          phase := .notifying items
          notified := queue.notified ++ [item] }
  | last (item : α) (hnotifying : queue.phase = .notifying [item]) :
      Effect capacity queue .notify
        { queue with phase := .idle, notified := queue.notified ++ [item] }

theorem effect_of_step {capacity : ℕ} {queue next : Queue α} {event : Event α}
    (hstep : step capacity queue event = some next) :
    Effect capacity queue event next := by
  cases event with
  | mark item =>
      obtain ⟨pending, hjoin, rfl⟩ := Option.map_eq_some_iff.mp hstep
      obtain ⟨rfl, hroom⟩ := join_eq_some hjoin
      exact .mark item hroom
  | drain =>
      simp only [step] at hstep
      split at hstep
      · rename_i hidle
        split at hstep
        · cases hstep
          exact .rest hidle ‹_›
        · rename_i item items hpending
          cases hstep
          rw [← hpending]
          exact .drain hidle (by simp [hpending])
      · cases hstep
  | returned accepted =>
      simp only [step] at hstep
      split at hstep
      · rename_i batch hworking
        cases accepted with
        | true =>
            cases hstep
            exact .accept batch hworking
        | false =>
            cases hstep
            exact .refuse batch hworking
      · cases hstep
  | reenqueue =>
      simp only [step] at hstep
      split at hstep
      · rename_i batch hfailed
        obtain ⟨pending, hjoin, rfl⟩ := Option.map_eq_some_iff.mp hstep
        obtain ⟨rfl, hroom⟩ := join_eq_some hjoin
        exact .reenqueue batch hfailed hroom
      · cases hstep
  | notify =>
      simp only [step] at hstep
      split at hstep
      · cases hstep
        exact .last _ ‹_›
      · cases hstep
        exact .notify _ _ ‹_›
      · cases hstep

/-- No item is lost, duplicated or reordered. -/
theorem ledger_step {capacity : ℕ} {queue next : Queue α} {event : Event α}
    (hstep : step capacity queue event = some next) :
    next.ledger = queue.ledger ++ event.marks := by
  cases effect_of_step hstep with
  | mark item hroom => simp [Queue.ledger]
  | rest hidle hempty => simp
  | drain hidle hpending => simp [Queue.ledger, hidle]
  | accept batch hworking => simp [Queue.ledger, hworking]
  | refuse batch hworking => simp [Queue.ledger, hworking]
  | reenqueue batch hfailed hroom =>
      simp [Queue.ledger, hfailed]
  | notify item items hnotifying => simp [Queue.ledger, hnotifying]
  | last item hnotifying => simp [Queue.ledger, hnotifying]

/-- The reports follow the settled batches, item by item. -/
theorem notified_step {capacity : ℕ} {queue next : Queue α} {event : Event α}
    (hreports : queue.notified ++ queue.phase.unreported = queue.settled.flatten)
    (hstep : step capacity queue event = some next) :
    next.notified ++ next.phase.unreported = next.settled.flatten := by
  cases effect_of_step hstep with
  | mark item hroom => exact hreports
  | rest hidle hempty => exact hreports
  | drain hidle hpending => simpa [hidle] using hreports
  | accept batch hworking =>
      simpa [hworking] using hreports
  | refuse batch hworking => simpa [hworking] using hreports
  | reenqueue batch hfailed hroom => simpa [hfailed] using hreports
  | notify item items hnotifying => simpa [hnotifying] using hreports
  | last item hnotifying => simpa [hnotifying] using hreports

/-- Only an accepted batch is settled. -/
theorem settled_step {capacity : ℕ} {queue next : Queue α} {event : Event α}
    (hstep : step capacity queue event = some next) :
    next.settled = queue.settled ∨ event = .returned true ∧
      next.settled = queue.settled ++ [queue.phase.inHand] := by
  cases effect_of_step hstep with
  | accept batch hworking => exact .inr ⟨rfl, by simp [hworking]⟩
  | _ => exact .inl rfl

/-- Only `mark` brings an item that was not waiting. -/
theorem waiting_step {capacity : ℕ} {queue next : Queue α} {event : Event α}
    (hmarks : event.marks = []) (hstep : step capacity queue event = some next) :
    ∀ item ∈ next.waiting, item ∈ queue.waiting := by
  cases effect_of_step hstep with
  | mark item hroom => cases hmarks
  | rest hidle hempty => exact fun item hitem => hitem
  | drain hidle hpending => simp [Queue.waiting, hidle]
  | accept batch hworking => simp +contextual [Queue.waiting]
  | refuse batch hworking => simp [Queue.waiting, hworking]
  | reenqueue batch hfailed hroom => simp [Queue.waiting, hfailed]
  | notify item items hnotifying => simp [Queue.waiting, hnotifying]
  | last item hnotifying => simp [Queue.waiting, hnotifying]

/-- The item is part of the batch in hand, or of the next one. -/
def Queue.Holds (queue : Queue α) (item : α) : Prop :=
  item ∈ queue.phase.inHand ∨ queue.phase = .idle ∧ item ∈ queue.pending

/-- An item whose batch is never accepted is held for ever, and nothing is
settled meanwhile. -/
theorem Queue.Holds.step {capacity : ℕ} {queue next : Queue α} {event : Event α}
    {item : α} (hholds : queue.Holds item)
    (hrefused : event = .returned true → item ∉ queue.phase.inHand)
    (hstep : RetryQueue.step capacity queue event = some next) :
    next.Holds item ∧ next.settled = queue.settled := by
  cases effect_of_step hstep with
  | mark other hroom =>
      refine ⟨?_, rfl⟩
      rcases hholds with hhand | ⟨hidle, hpending⟩
      · exact .inl hhand
      · exact .inr ⟨hidle, List.mem_append_left _ hpending⟩
  | rest hidle hempty => exact ⟨hholds, rfl⟩
  | drain hidle hpending =>
      rcases hholds with hhand | ⟨-, hmem⟩
      · simp [hidle] at hhand
      · exact ⟨.inl hmem, rfl⟩
  | accept batch hworking =>
      rcases hholds with hhand | ⟨hidle, -⟩
      · exact absurd hhand (hrefused rfl)
      · rw [hworking] at hidle
        cases hidle
  | refuse batch hworking =>
      rcases hholds with hhand | ⟨hidle, -⟩
      · rw [hworking] at hhand
        exact ⟨.inl hhand, rfl⟩
      · rw [hworking] at hidle
        cases hidle
  | reenqueue batch hfailed hroom =>
      rcases hholds with hhand | ⟨hidle, -⟩
      · rw [hfailed] at hhand
        exact ⟨.inr ⟨rfl, List.mem_append_left _ hhand⟩, rfl⟩
      · rw [hfailed] at hidle
        cases hidle
  | notify other others hnotifying =>
      rcases hholds with hhand | ⟨hidle, -⟩
      · simp [hnotifying] at hhand
      · rw [hnotifying] at hidle
        cases hidle
  | last other hnotifying =>
      rcases hholds with hhand | ⟨hidle, -⟩
      · simp [hnotifying] at hhand
      · rw [hnotifying] at hidle
        cases hidle

/-- Lists that exist fit in memory. -/
structure Fits (capacity : ℕ) (queue : Queue α) : Prop where
  pending : queue.pending.length ≤ capacity
  inHand : queue.phase.inHand.length ≤ capacity

theorem Fits.step {capacity : ℕ} {queue next : Queue α} {event : Event α}
    (hfits : Fits capacity queue)
    (hstep : RetryQueue.step capacity queue event = some next) :
    Fits capacity next := by
  cases effect_of_step hstep with
  | mark item hroom => exact ⟨hroom, hfits.inHand⟩
  | rest hidle hempty => exact hfits
  | drain hidle hpending => exact ⟨Nat.zero_le _, hfits.pending⟩
  | accept batch hworking => exact ⟨hfits.pending, Nat.zero_le _⟩
  | refuse batch hworking =>
      have hbatch := hfits.inHand
      rw [hworking] at hbatch
      exact ⟨hfits.pending, hbatch⟩
  | reenqueue batch hfailed hroom => exact ⟨hroom, Nat.zero_le _⟩
  | notify item items hnotifying => exact ⟨hfits.pending, Nat.zero_le _⟩
  | last item hnotifying => exact ⟨hfits.pending, Nat.zero_le _⟩

/-- The reports of a settled batch, one after the other. -/
theorem run_notify (capacity : ℕ) (queue : Queue α) {item : α} {items : List α}
    (hnotifying : queue.phase = .notifying (item :: items)) :
    run (RetryQueue.step capacity) queue
        (List.replicate (item :: items).length .notify) =
      some { queue with
        phase := .idle
        notified := queue.notified ++ item :: items } := by
  induction items generalizing queue item with
  | nil => simp [run, RetryQueue.step, hnotifying]
  | cons second items ih =>
      have hstep : RetryQueue.step capacity queue .notify =
          some { queue with
            phase := .notifying (second :: items)
            notified := queue.notified ++ [item] } := by
        simp only [RetryQueue.step, hnotifying]
      rw [List.length_cons, List.replicate_succ, run_cons, hstep]
      simpa using ih { queue with
        phase := .notifying (second :: items)
        notified := queue.notified ++ [item] } rfl

end FutureQ.RetryQueue
