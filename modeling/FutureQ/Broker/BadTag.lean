import FutureQ.Broker.Deleter

/-!
# One bad delivery tag

`receiver` queues every tag of a successful acknowledgement without looking at
it, `MarshalDeleteBatchCmd` refuses a batch with one key of another length than
24, and `flush` puts a refused batch back in front.  On a Raft node a tag of
another length therefore never leaves the queue, and every later flush carries
it.
-/

namespace FutureQ.BadTag

open FutureQ.ByteOrder
open FutureQ.OrderedStore
open FutureQ.RetryQueue
open FutureQ.StateMachine
open FutureQ.Deleter
open FutureQ.Transition

/-- A Raft node seen from its deleter. -/
structure Node where
  queue : Queue Bytes
  sm : EventStateMachine

/-- `ack` is a frame in `receiver`, `mark` a `MarkDeleted` of the dispatcher or
the janitor, `update` a call of the state machine for other entries; the rest
are the steps of `flush`. -/
inductive Action where
  | ack (success : Bool) (deliveryTag : Bytes)
  | mark (key : Bytes)
  | update (entries : List Entry)
  | drain
  | deleteKeys (proposal : Proposal)
  | reenqueue
  | notify

def Node.enqueue (node : Node) (event : Event Bytes) : Option Node :=
  (RetryQueue.step pendingCapacity node.queue event).map fun queue =>
    { node with queue }

def step (node : Node) : Action → Option Node
  | .ack success deliveryTag =>
      if success then node.enqueue (.mark deliveryTag) else some node
  | .mark key => node.enqueue (.mark key)
  | .update entries =>
      match StateMachine.update .pebble .none node.sm entries with
      | .error _ => none
      | .ok updated => some { node with sm := updated.sm }
  | .drain => node.enqueue .drain
  | .deleteKeys proposal =>
      match node.queue.phase with
      | .working keys =>
          match raftDeleteKeys node.sm keys proposal with
          | none => none
          | some deletion =>
              Node.enqueue { node with sm := deletion.sm }
                (.returned deletion.accepted)
      | _ => none
  | .reenqueue => node.enqueue .reenqueue
  | .notify => node.enqueue .notify

/-- A whole call of `flush` with nothing in between. -/
def flush (node : Node) (proposal : Proposal) : Option Node := do
  let drained ← step node .drain
  match drained.queue.phase with
  | .working keys =>
      let called ← step drained (.deleteKeys proposal)
      match called.queue.phase with
      | .failed _ => step called .reenqueue
      | _ => run step called (List.replicate keys.length .notify)
  | _ => return drained

def start (sm : EventStateMachine) : Node := ⟨.empty, sm⟩

/-- The keys that an action gives to `MarkDeleted`. -/
@[simp]
def markedBy : Action → List Bytes
  | .ack true deliveryTag => [deliveryTag]
  | .ack false _ => []
  | .mark key => [key]
  | .update _ => []
  | .drain => []
  | .deleteKeys _ => []
  | .reenqueue => []
  | .notify => []

/-- A flush whose proposal is accepted clears every pending key of 24 bytes, and
some continuation settles a batch. -/
structure Unblocked (node : Node) : Prop where
  clears : ∀ index, ∃ next, flush node (.accepted index) = some next ∧
    ∀ key ∈ node.queue.pending, key.length = 24 →
      key ∉ next.queue.pending ∧ next.sm.db[key]? = none
  recovers : ∃ later next, run step node later = some next ∧
    next.queue.settled ≠ node.queue.settled

/-! ## The queue in every run -/

/-- Every action is at most one event of the queue, and a batch is accepted only
when all its keys have 24 bytes. -/
theorem step_queue {node next : Node} {action : Action}
    (hstep : step node action = some next) :
    (next.queue = node.queue ∧ markedBy action = []) ∨
      ∃ event, RetryQueue.step pendingCapacity node.queue event =
          some next.queue ∧ event.marks = markedBy action ∧
        (event = .returned true →
          ∀ key ∈ node.queue.phase.inHand, key.length = 24) := by
  have henqueue : ∀ {event : Event Bytes} {sm : EventStateMachine},
      Node.enqueue { node with sm } event = some next →
        RetryQueue.step pendingCapacity node.queue event = some next.queue := by
    intro event sm hevent
    obtain ⟨queue, hqueue, rfl⟩ := Option.map_eq_some_iff.mp hevent
    exact hqueue
  cases action with
  | ack success deliveryTag =>
      cases success with
      | true => exact .inr ⟨_, henqueue hstep, rfl, by simp⟩
      | false =>
          cases hstep
          exact .inl ⟨rfl, rfl⟩
  | mark key => exact .inr ⟨_, henqueue hstep, rfl, by simp⟩
  | update entries =>
      simp only [step] at hstep
      split at hstep
      · cases hstep
      · cases hstep
        exact .inl ⟨rfl, rfl⟩
  | drain => exact .inr ⟨_, henqueue hstep, rfl, by simp⟩
  | deleteKeys proposal =>
      simp only [step] at hstep
      split at hstep
      · rename_i keys hworking
        split at hstep
        · cases hstep
        · rename_i deletion hcall
          refine .inr ⟨_, henqueue hstep, rfl, ?_⟩
          intro haccepted
          rw [hworking]
          exact raftDeleteKeys_accepted hcall (Event.returned.inj haccepted)
      · cases hstep
  | reenqueue => exact .inr ⟨_, henqueue hstep, rfl, by simp⟩
  | notify => exact .inr ⟨_, henqueue hstep, rfl, by simp⟩

/-- The queue holds what was marked, in memory that exists, and settled batches
are clean. -/
structure Accounted (marked : List Bytes) (node : Node) : Prop where
  ledger : node.queue.ledger = marked
  fits : Fits pendingCapacity node.queue
  clean : ∀ batch ∈ node.queue.settled, ∀ key ∈ batch, key.length = 24

theorem accounted_start (sm : EventStateMachine) : Accounted [] (start sm) :=
  ⟨rfl, ⟨Nat.zero_le _, Nat.zero_le _⟩, by simp [start, Queue.empty]⟩

theorem Accounted.step {marked : List Bytes} {node next : Node} {action : Action}
    (haccounted : Accounted marked node)
    (hstep : BadTag.step node action = some next) :
    Accounted (marked ++ markedBy action) next := by
  rcases step_queue hstep with ⟨hqueue, hmarks⟩ | ⟨event, hevent, hmarks, haccept⟩
  · exact ⟨by rw [hqueue, haccounted.ledger, hmarks, List.append_nil],
      hqueue ▸ haccounted.fits, hqueue ▸ haccounted.clean⟩
  · refine ⟨?_, haccounted.fits.step hevent, ?_⟩
    · rw [ledger_step hevent, haccounted.ledger, hmarks]
    · intro batch hbatch
      rcases settled_step hevent with hsame | ⟨rfl, hsettled⟩
      · exact haccounted.clean batch (hsame ▸ hbatch)
      · rw [hsettled] at hbatch
        rcases List.mem_append.mp hbatch with hold | hnew
        · exact haccounted.clean batch hold
        · rw [List.mem_singleton.mp hnew]
          exact haccept rfl

theorem Accounted.run {marked : List Bytes} {node finish : Node}
    {actions : List Action} (haccounted : Accounted marked node)
    (hrun : Transition.run BadTag.step node actions = some finish) :
    Accounted (marked ++ actions.flatMap markedBy) finish :=
  run_collects (fun _ _ _ _ hcurrent hstep => hcurrent.step hstep) haccounted hrun

/-! ## A bad tag stays -/

/-- A tag of another length is never settled, and nothing is settled while it is
held. -/
theorem holds_step {tag : Bytes} {settled : List (List Bytes)} {node next : Node}
    {action : Action} (htag : tag.length ≠ 24)
    (hholds : node.queue.Holds tag ∧ node.queue.settled = settled)
    (hstep : step node action = some next) :
    next.queue.Holds tag ∧ next.queue.settled = settled := by
  rcases step_queue hstep with ⟨hqueue, -⟩ | ⟨event, hevent, -, haccept⟩
  · rw [hqueue]
    exact hholds
  · obtain ⟨hnext, hsame⟩ := hholds.1.step
      (fun haccepted hhand => htag (haccept haccepted tag hhand)) hevent
    exact ⟨hnext, hsame.trans hholds.2⟩

theorem settled_of_holds {tag : Bytes} {node finish : Node} {actions : List Action}
    (htag : tag.length ≠ 24) (hholds : node.queue.Holds tag)
    (hrun : run step node actions = some finish) :
    finish.queue.settled = node.queue.settled :=
  (run_preserves (fun _ _ _ hinv hstep => holds_step htag hinv hstep)
    ⟨hholds, rfl⟩ hrun).2

/-! ## A clean queue is flushed -/

section Clean

variable {node : Node} (hidle : node.queue.phase = .idle)
  (hpending : node.queue.pending ≠ [])
  (hroom : node.queue.pending.length ≤ pendingCapacity)
  (hclean : ∀ key ∈ node.queue.pending, key.length = 24)

/-- What a flush leaves once its proposal is accepted and before the callbacks. -/
def settledNode (node : Node) (index : UInt64) : Node :=
  ⟨{ node.queue with
      pending := []
      phase := .notifying node.queue.pending
      settled := node.queue.settled ++ [node.queue.pending] },
    afterDelete node.sm index node.queue.pending⟩

include hidle hpending in
theorem step_drain :
    step node .drain = some { node with queue := { node.queue with
      pending := [], phase := .working node.queue.pending } } := by
  obtain ⟨key, keys, hkeys⟩ := List.exists_cons_of_ne_nil hpending
  simp [step, Node.enqueue, RetryQueue.step, hidle, hkeys]

include hroom hclean in
theorem step_deleteKeys (index : UInt64) :
    step { node with queue := { node.queue with
        pending := [], phase := .working node.queue.pending } }
      (.deleteKeys (.accepted index)) = some (settledNode node index) := by
  simp only [step]
  rw [raftDeleteKeys_of_lengths hclean hroom]
  rfl

include hidle hpending hroom hclean in
theorem run_settle (index : UInt64) :
    run step node [.drain, .deleteKeys (.accepted index)] =
      some (settledNode node index) :=
  run_cons_eq_some.mpr ⟨_, step_drain hidle hpending,
    run_cons_eq_some.mpr ⟨_, step_deleteKeys hroom hclean index, rfl⟩⟩

theorem run_notify {queue next : Queue Bytes} {count : ℕ}
    (hrun : run (RetryQueue.step pendingCapacity) queue
      (List.replicate count .notify) = some next) (sm : EventStateMachine) :
    run step ⟨queue, sm⟩ (List.replicate count .notify) = some ⟨next, sm⟩ := by
  induction count generalizing queue with
  | zero =>
      cases hrun
      rfl
  | succ count ih =>
      rw [List.replicate_succ] at hrun ⊢
      obtain ⟨middle, hmiddle, hrest⟩ := run_cons_eq_some.mp hrun
      refine run_cons_eq_some.mpr ⟨⟨middle, sm⟩, ?_, ih hrest⟩
      simp [step, Node.enqueue, hmiddle]

include hidle hpending hroom hclean in
/-- A clean queue is emptied, and its keys leave the database. -/
theorem flush_clean (index : UInt64) :
    flush node (.accepted index) = some ⟨{ (settledNode node index).queue with
        phase := .idle
        notified := node.queue.notified ++ node.queue.pending },
      afterDelete node.sm index node.queue.pending⟩ := by
  obtain ⟨key, keys, hkeys⟩ := List.exists_cons_of_ne_nil hpending
  have hphase : (settledNode node index).queue.phase = .notifying (key :: keys) :=
    congrArg Phase.notifying hkeys
  have hnotify := run_notify (RetryQueue.run_notify pendingCapacity _ hphase)
    (settledNode node index).sm
  rw [← hkeys] at hnotify
  simp only [flush, step_drain hidle hpending, Option.bind_eq_bind,
    Option.bind_some, step_deleteKeys hroom hclean]
  exact hnotify

end Clean

theorem flush_empty {node : Node} (hidle : node.queue.phase = .idle)
    (hempty : node.queue.pending = []) (proposal : Proposal) :
    flush node proposal = some node := by
  simp [flush, step, Node.enqueue, RetryQueue.step, hidle, hempty]

/-- A flush of a batch with a bad tag puts everything back. -/
theorem flush_bad {node : Node} (hidle : node.queue.phase = .idle)
    (hroom : node.queue.pending.length ≤ pendingCapacity)
    (hbad : ∃ key ∈ node.queue.pending, key.length ≠ 24) (proposal : Proposal) :
    flush node proposal = some node := by
  have hpending : node.queue.pending ≠ [] := by
    obtain ⟨key, hkey, -⟩ := hbad
    exact List.ne_nil_of_mem hkey
  have hcall : step { node with queue := { node.queue with
      pending := [], phase := .working node.queue.pending } }
        (.deleteKeys proposal) = some { node with queue := { node.queue with
          pending := [], phase := .failed node.queue.pending } } := by
    simp only [step]
    rw [raftDeleteKeys_of_bad hbad]
    rfl
  simp only [flush, step_drain hidle hpending, Option.bind_eq_bind,
    Option.bind_some, hcall]
  simp [step, Node.enqueue, RetryQueue.step, join, hroom, ← hidle]

def zeroKey : Bytes := List.replicate 24 0

/-- An empty queue settles the next key of 24 bytes. -/
theorem recovers_of_empty {node : Node} (hidle : node.queue.phase = .idle)
    (hempty : node.queue.pending = []) :
    ∃ later next, run step node later = some next ∧
      next.queue.settled ≠ node.queue.settled := by
  let marked : Node :=
    { node with queue := { node.queue with pending := [zeroKey] } }
  have hmark : step node (.mark zeroKey) = some marked := by
    simp [marked, step, Node.enqueue, RetryQueue.step, join, hempty,
      pendingCapacity_eq]
  have hclean : ∀ key ∈ [zeroKey], key.length = 24 := by simp [zeroKey]
  have hroom : [zeroKey].length ≤ pendingCapacity := by decide
  have hsettle : run step marked [.drain, .deleteKeys (.accepted 0)] =
      some (settledNode marked 0) := by
    have hmarked : marked.queue.phase = .idle := hidle
    exact run_settle hmarked (List.cons_ne_nil zeroKey []) hroom hclean 0
  refine ⟨_, _, run_cons_eq_some.mpr ⟨_, hmark, hsettle⟩, ?_⟩
  simp [marked, settledNode]

theorem unblocked_of_clean {node : Node} (hidle : node.queue.phase = .idle)
    (hroom : node.queue.pending.length ≤ pendingCapacity)
    (hclean : ∀ key ∈ node.queue.pending, key.length = 24) : Unblocked node := by
  by_cases hpending : node.queue.pending = []
  · exact ⟨fun index => ⟨node, flush_empty hidle hpending _, by simp [hpending]⟩,
      recovers_of_empty hidle hpending⟩
  · refine ⟨fun index => ⟨_, flush_clean hidle hpending hroom hclean index, ?_⟩, ?_⟩
    · intro key hkey _
      exact ⟨by simp [settledNode], getElem?_afterDelete hclean node.sm index hkey⟩
    · refine ⟨_, _, run_settle hidle hpending hroom hclean 0, ?_⟩
      simp [settledNode]

theorem not_unblocked_of_bad {node : Node} {tag : Bytes}
    (hidle : node.queue.phase = .idle) (htag : tag.length ≠ 24)
    (hpending : tag ∈ node.queue.pending) : ¬ Unblocked node := by
  rintro ⟨-, later, next, hrun, hsettled⟩
  exact hsettled (settled_of_holds htag (.inr ⟨hidle, hpending⟩) hrun)

/-- Between two flushes the deleter of a Raft node still works exactly when every
tag that was ever marked has 24 bytes. -/
theorem flush_unblocked_iff {sm : EventStateMachine} {actions : List Action}
    {finish : Node} (hrun : run step (start sm) actions = some finish)
    (hidle : finish.queue.phase = .idle) :
    Unblocked finish ↔ ∀ tag ∈ actions.flatMap markedBy, tag.length = 24 := by
  have haccounted := (accounted_start sm).run hrun
  rw [List.nil_append] at haccounted
  have hledger : finish.queue.settled.flatten ++ finish.queue.pending =
      actions.flatMap markedBy := by
    rw [← haccounted.ledger, Queue.ledger, hidle]
    simp
  constructor
  · intro hunblocked tag htag
    rw [← hledger, List.mem_append] at htag
    rcases htag with hsettled | hpending
    · obtain ⟨batch, hbatch, hmem⟩ := List.mem_flatten.mp hsettled
      exact haccounted.clean batch hbatch tag hmem
    · by_contra hlength
      exact not_unblocked_of_bad hidle hlength hpending hunblocked
  · intro hmarked
    apply unblocked_of_clean hidle haccounted.fits.pending
    intro key hkey
    apply hmarked
    rw [← hledger]
    exact List.mem_append_right _ hkey

/-! ## One acknowledgement with a one-byte tag -/

/-- A replica that stores one message. -/
def oneStored : EventStateMachine :=
  ⟨commit ∅ [.set zeroKey [7]], ⟨0, ⟨0, Keys.valid_zero⟩⟩, 0⟩

def blockedNode : Node := ⟨{ Queue.empty with pending := [[1], zeroKey] }, oneStored⟩

theorem flush_unblocked_iff_zeroKey :
    ∃ finish, run step (start oneStored) [.ack false [1], .ack true zeroKey] =
        some finish ∧ finish.queue.phase = .idle ∧ Unblocked finish := by
  have hrun : run step (start oneStored) [.ack false [1], .ack true zeroKey] =
      some ⟨{ Queue.empty with pending := [zeroKey] }, oneStored⟩ := by
    simp [run, step, start, Node.enqueue, RetryQueue.step, join, Queue.empty,
      pendingCapacity_eq]
  refine ⟨_, hrun, rfl, (flush_unblocked_iff hrun rfl).mpr ?_⟩
  simp [zeroKey]

/-- The tag goes back to the queue with every flush, the message beside it stays
stored, and nothing is deleted any more. -/
theorem bad_tag_blocks_deletion :
    run step (start oneStored) [.ack true [1], .ack true zeroKey] =
        some blockedNode ∧
      (∀ proposal, flush blockedNode proposal = some blockedNode) ∧
      blockedNode.sm.db[zeroKey]? = some [7] ∧
      ∀ later next, run step blockedNode later = some next →
        next.queue.settled = [] := by
  have hroom : blockedNode.queue.pending.length ≤ pendingCapacity := by decide
  have hbad : ∃ key ∈ blockedNode.queue.pending, key.length ≠ 24 :=
    ⟨[1], by simp [blockedNode], by decide⟩
  refine ⟨?_, flush_bad rfl hroom hbad, ?_, ?_⟩
  · simp [run, step, start, blockedNode, Node.enqueue, RetryQueue.step, join,
      Queue.empty, pendingCapacity_eq]
  · simp [blockedNode, oneStored, BatchOp.apply]
  · intro later next hrun
    have hheld : blockedNode.queue.Holds [1] :=
      .inr ⟨rfl, by simp [blockedNode]⟩
    exact settled_of_holds (by decide) hheld hrun

end FutureQ.BadTag
