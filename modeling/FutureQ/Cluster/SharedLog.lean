import FutureQ.Broker.Janitor
import FutureQ.Cluster.StreamOrder

/-!
# Streams, replicas and deleters on one log

The publish streams, the replicas and the deleters of all nodes share one committed log.
A stream's command and a deleter's command are proposals alike: the Raft library commits
each at most once, in any order, possibly after the caller has given up, or drops it.  A
deleter is filled by acknowledgements of consumers and by the scans of the dispatcher and
the janitor, which read the database of their own replica and mark what they found some
time later.  Processes crash and lose everything but the database.

`sound_run` collects what holds in every reachable state.  A delete command names only
keys that a consumer acknowledged or a scan found expired, and what a scan found is a
message of the log.
-/

namespace FutureQ.SharedLog

open FutureQ.ByteOrder
open FutureQ.GoRuntime
open FutureQ.OrderedStore
open FutureQ.Mailbox
open FutureQ.Transition
open FutureQ.RetryQueue (Queue)
open FutureQ.Storage
open FutureQ.Keys
open FutureQ.Repository
open FutureQ.Commands
open FutureQ.CommandCodec
open FutureQ.StateMachine
open FutureQ.Producer
open FutureQ.Consumers
open FutureQ.Dispatch
open FutureQ.Janitor
open FutureQ.Deleter
open FutureQ.Backlog
open FutureQ.PublishStream (Submission Commands)
open FutureQ.StreamOrder
open FutureQ.Failover (Cluster Deletes requestsOf itemsOf mailbox appliedBy)

variable {Index : Type}

/-! ## The system -/

/-- Why a key was marked for deletion, and on which node. -/
inductive Cause where
  | acked (id : UInt64) (consumer : String) (key : Bytes)
  | expired (id : UInt64) (nowMs : Int64) (key : Bytes)
  deriving DecidableEq

def Cause.key : Cause → Bytes
  | .acked _ _ key => key
  | .expired _ _ key => key

/-- The memory of a process: keys that a scan has found and not marked yet, the deleter,
and the number of the proposal that `DeleteKeys` waits for. -/
structure Node where
  found : List Bytes
  queue : Queue Bytes
  proposal : Option ℕ

def Node.fresh : Node := ⟨[], .empty, none⟩

/-- `flight` holds the delete commands that are proposed and not committed, `committed`
the numbers of those that were; `layout` is the log with the commands of the streams
marked, `history` every cause so far. -/
structure System (Index : Type) where
  streams : PublishStream.System Index
  cluster : Cluster
  nodes : UInt64 → Node
  flight : List (ℕ × Bytes)
  proposed : ℕ
  committed : List ℕ
  layout : Layout
  history : List Cause

def System.start (bucketSize : TimeBucketSize) : System Index where
  streams := .start
  cluster := .initial bucketSize
  nodes := fun _ => .fresh
  flight := []
  proposed := 0
  committed := []
  layout := []
  history := []

/-- `store` commits the command of a stream and `commit` that of a deleter; `pass` and
`sweep` are scans of the dispatcher and the janitor, `mark` hands one of their keys to the
deleter; `drain` to `notify` are the steps of `flush`, with `propose` to `abort` inside
`DeleteKeys`. -/
inductive Action (Index : Type) where
  | stream (action : PublishStream.Action Index)
  | store (position : ℕ) (index : UInt64)
  | replica (action : Failover.Action)
  | ack (id : UInt64) (consumer : String) (key : Bytes)
  | pass (id : UInt64) (topic : String) (turns : Bytes → Turn) (hub : Hub)
      (dispatcher : Dispatcher) (nowMs : Int64)
  | sweep (id : UInt64) (nowMs : Int64)
  | mark (id : UInt64) (position : ℕ)
  | drain (id : UInt64)
  | propose (id : UInt64)
  | commit (position : ℕ) (index : UInt64)
  | drop (position : ℕ)
  | complete (id : UInt64)
  | abort (id : UInt64)
  | reenqueue (id : UInt64)
  | notify (id : UInt64)

def System.setNode (system : System Index) (id : UInt64) (node : Node) : System Index :=
  { system with nodes := Function.update system.nodes id node }

/-- One event of the queue of a deleter. -/
def System.move (system : System Index) (id : UInt64) (event : RetryQueue.Event Bytes)
    (proposal : Option ℕ) : Option (System Index) :=
  (RetryQueue.step pendingCapacity (system.nodes id).queue event).map fun queue =>
    system.setNode id { system.nodes id with queue, proposal }

/-- A scan on a node has found these keys expired. -/
def System.discover (system : System Index) (id : UInt64) (nowMs : Int64)
    (keys : List Bytes) : System Index :=
  { system.setNode id { system.nodes id with found := (system.nodes id).found ++ keys } with
    history := system.history ++ keys.map (.expired id nowMs) }

/-- The process that an action of the replicas ends. -/
def ends (cluster : Cluster) : Failover.Action → Option UInt64
  | .join id => some id
  | .restart id => some id
  | .deliver id more =>
      match cluster.members[id]? with
      | none => none
      | some member =>
          match update .pebble .none member.sm
              ((Failover.behind cluster.log member.sm).take (more + 1)) with
          | .error _ => some id
          | .ok _ => none
  | .commit _ => none
  | .install _ _ => none

def nodesAfter (cluster : Cluster) (nodes : UInt64 → Node) (action : Failover.Action) :
    UInt64 → Node :=
  match ends cluster action with
  | none => nodes
  | some id => Function.update nodes id .fresh

def step (lib : Libraries Index) (bucketSize : TimeBucketSize) (minAckQuorum : Bool)
    (system : System Index) : Action Index → Option (System Index)
  | .stream action =>
      match action with
      | .commit _ => none
      | action =>
          (PublishStream.step lib bucketSize minAckQuorum system.streams action).map
            fun streams => { system with streams }
  | .store position index =>
      match system.streams.pending[position]? with
      | none => none
      | some submission =>
          match PublishStream.step lib bucketSize minAckQuorum system.streams
              (.commit position),
            Failover.step system.cluster (.commit ⟨index, submission.cmdBytes⟩) with
          | some streams, some cluster => some { system with
              streams
              cluster
              layout := system.layout ++ [(⟨index, submission.cmdBytes⟩, some submission)] }
          | _, _ => none
  | .replica action =>
      match action with
      | .commit _ => none
      | action =>
          (Failover.step system.cluster action).map fun cluster => { system with
            cluster
            nodes := nodesAfter system.cluster system.nodes action }
  | .ack id consumer key =>
      match system.cluster.members[id]? with
      | none => none
      | some _ =>
          (system.move id (.mark key) (system.nodes id).proposal).map fun system =>
            { system with history := system.history ++ [.acked id consumer key] }
  | .pass id topic turns hub dispatcher nowMs =>
      match system.cluster.members[id]? with
      | none => none
      | some member => some (system.discover id nowMs
          (dispatchTopic lib bucketSize member.sm.db turns hub dispatcher topic
            nowMs).expiredKeys)
  | .sweep id nowMs =>
      match system.cluster.members[id]? with
      | none => none
      | some member =>
          some (system.discover id nowMs (sweep lib member.sm.db nowMs false))
  | .mark id position =>
      match (system.nodes id).found[position]? with
      | none => none
      | some key =>
          (RetryQueue.step pendingCapacity (system.nodes id).queue (.mark key)).map
            fun queue => system.setNode id { system.nodes id with
              found := (system.nodes id).found.eraseIdx position
              queue }
  | .drain id => system.move id .drain (system.nodes id).proposal
  | .propose id =>
      match (system.nodes id).queue.phase, (system.nodes id).proposal with
      | .working batch, none =>
          match marshalDeleteBatchCmd batch with
          -- a panic takes the process down, which is a `restart` of the replica
          | .error (.panic _) => none
          | .error (.error _) => system.move id (.returned false) none
          | .ok cmd => some
              { system.setNode id
                  { system.nodes id with proposal := some system.proposed } with
                flight := system.flight ++ [(system.proposed, cmd)]
                proposed := system.proposed + 1 }
      | _, _ => none
  | .commit position index =>
      match system.flight[position]? with
      | none => none
      | some (number, cmd) =>
          (Failover.step system.cluster (.commit ⟨index, cmd⟩)).map fun cluster =>
            { system with
              cluster
              flight := system.flight.eraseIdx position
              committed := system.committed ++ [number]
              layout := system.layout ++ [(⟨index, cmd⟩, none)] }
  | .drop position =>
      match system.flight[position]? with
      | none => none
      | some _ => some { system with flight := system.flight.eraseIdx position }
  | .complete id =>
      match (system.nodes id).proposal with
      | none => none
      | some number =>
          if number ∈ system.committed then system.move id (.returned true) none
          else none
  | .abort id => system.move id (.returned false) none
  | .reenqueue id => system.move id .reenqueue (system.nodes id).proposal
  | .notify id => system.move id .notify (system.nodes id).proposal

/-- No replica applies entries between its recovery and the next restart. -/
def Restarted (system : System Index) : Action Index → Prop
  | .replica action => Failover.Restarted system.cluster action
  | _ => True

instance instDecidableRestarted (system : System Index) :
    (action : Action Index) → Decidable (Restarted system action)
  | .replica action => inferInstanceAs (Decidable (Failover.Restarted system.cluster action))
  | .stream _ | .store _ _ | .ack _ _ _ | .pass _ _ _ _ _ _ | .sweep _ _ | .mark _ _
  | .drain _ | .propose _ | .commit _ _ | .drop _ | .complete _ | .abort _
  | .reenqueue _ | .notify _ => isTrue trivial

/-! ## What a step does -/

/-- The keys that a process will ask to delete. -/
def Node.keys (node : Node) : List Bytes := node.found ++ node.queue.waiting

/-- What a cause rests on: for an expired key a message in the database of the node. -/
def Witnessed (lib : Libraries Index) (cluster : Cluster) : Cause → Prop
  | .acked _ _ _ => True
  | .expired id nowMs key => ∃ member value msg, cluster.members[id]? = some member ∧
      member.sm.db[key]? = some value ∧ lib.unmarshal value = some msg ∧
      isExpired msg nowMs = true

/-- How the memory of a process moves: `DeleteKeys` returns `nil` only after its proposal
was committed, and returning ends the wait for the proposal. -/
inductive Moves (committed : List ℕ) (old : Node) : Node → Prop where
  | stay (found : List Bytes) : Moves committed old { old with found }
  | keep (found : List Bytes) {event : RetryQueue.Event Bytes} {queue : Queue Bytes}
      (hstep : RetryQueue.step pendingCapacity old.queue event = some queue)
      (hevent : ∀ accepted, event ≠ .returned accepted) :
      Moves committed old ⟨found, queue, old.proposal⟩
  | close {accepted : Bool} {queue : Queue Bytes}
      (hstep : RetryQueue.step pendingCapacity old.queue (.returned accepted) = some queue)
      (hcommitted : accepted = true → ∃ number ∈ committed, old.proposal = some number) :
      Moves committed old ⟨old.found, queue, none⟩

inductive Effect (lib : Libraries Index) (bucketSize : TimeBucketSize)
    (system : System Index) : Action Index → System Index → Prop where
  | streams {action : Action Index} {streams : PublishStream.System Index}
      (heffect : PublishStream.Effect lib bucketSize system.streams streams)
      (hlog : streams.log = system.streams.log) :
      Effect lib bucketSize system action { system with streams }
  | store {action : Action Index} {position : ℕ} {index : UInt64}
      {submission : Submission}
      (hpending : system.streams.pending[position]? = some submission)
      (hafter : Journal.lastIndex 0 system.cluster.log < index) :
      Effect lib bucketSize system action { system with
        streams := { system.streams with
          pending := system.streams.pending.eraseIdx position
          log := system.streams.log ++ [submission] }
        cluster := { system.cluster with
          log := system.cluster.log ++ [⟨index, submission.cmdBytes⟩] }
        layout := system.layout ++ [(⟨index, submission.cmdBytes⟩, some submission)] }
  | replica {action : Failover.Action} {cluster : Cluster}
      (heffect : Failover.Effect system.cluster action cluster)
      (hlog : cluster.log = system.cluster.log) :
      Effect lib bucketSize system (.replica action) { system with
        cluster
        nodes := nodesAfter system.cluster system.nodes action }
  | node {action : Action Index} {id : UInt64} {node : Node} {causes : List Cause}
      (hmoves : Moves system.committed (system.nodes id) node)
      (hkeys : ∀ key ∈ node.keys, key ∈ (system.nodes id).keys ∨
        key ∈ causes.map Cause.key)
      (hcauses : ∀ cause ∈ causes, Witnessed lib system.cluster cause)
      (hacked : ∀ id consumer key, .acked id consumer key ∈ causes →
        action = .ack id consumer key) :
      Effect lib bucketSize system action { system.setNode id node with
        history := system.history ++ causes }
  | propose {action : Action Index} {id : UInt64} {batch : List Bytes} {cmd : Bytes}
      (hworking : (system.nodes id).queue.phase = .working batch)
      (hmarshal : marshalDeleteBatchCmd batch = .ok cmd) :
      Effect lib bucketSize system action
        { system.setNode id
            { system.nodes id with proposal := some system.proposed } with
          flight := system.flight ++ [(system.proposed, cmd)]
          proposed := system.proposed + 1 }
  | commit {action : Action Index} {position : ℕ} {index : UInt64} {number : ℕ}
      {cmd : Bytes} (hflight : system.flight[position]? = some (number, cmd))
      (hafter : Journal.lastIndex 0 system.cluster.log < index) :
      Effect lib bucketSize system action { system with
        cluster := { system.cluster with log := system.cluster.log ++ [⟨index, cmd⟩] }
        flight := system.flight.eraseIdx position
        committed := system.committed ++ [number]
        layout := system.layout ++ [(⟨index, cmd⟩, none)] }
  | drop {action : Action Index} (position : ℕ) :
      Effect lib bucketSize system action
        { system with flight := system.flight.eraseIdx position }

section Effects

variable {lib : Libraries Index} {bucketSize : TimeBucketSize} {minAckQuorum : Bool}

theorem mem_waiting_of_step {queue next : Queue Bytes} {event : RetryQueue.Event Bytes}
    (hstep : RetryQueue.step pendingCapacity queue event = some next) {key : Bytes}
    (hkey : key ∈ next.waiting) : key ∈ queue.waiting ∨ key ∈ event.marks := by
  cases event with
  | mark item =>
      cases RetryQueue.effect_of_step hstep with
      | mark item hroom =>
          simpa [RetryQueue.Queue.waiting, or_assoc] using hkey
  | drain => exact .inl (RetryQueue.waiting_step rfl hstep key hkey)
  | returned accepted => exact .inl (RetryQueue.waiting_step rfl hstep key hkey)
  | reenqueue => exact .inl (RetryQueue.waiting_step rfl hstep key hkey)
  | notify => exact .inl (RetryQueue.waiting_step rfl hstep key hkey)

theorem Moves.fits {committed : List ℕ} {old node : Node}
    (hmoves : Moves committed old node)
    (hfits : RetryQueue.Fits pendingCapacity old.queue) :
    RetryQueue.Fits pendingCapacity node.queue := by
  cases hmoves with
  | stay found => exact hfits
  | keep found hstep hevent => exact hfits.step hstep
  | close hstep hcommitted => exact hfits.step hstep

/-- A move that changes no history. -/
theorem effect_of_moves {system : System Index} {id : UInt64} {node : Node}
    {action : Action Index} (hmoves : Moves system.committed (system.nodes id) node)
    (hkeys : ∀ key ∈ node.keys, key ∈ (system.nodes id).keys) :
    Effect lib bucketSize system action (system.setNode id node) := by
  have hnode : Effect lib bucketSize system action
      { system.setNode id node with history := system.history ++ [] } :=
    .node hmoves (fun key hkey => .inl (hkeys key hkey)) (by simp) (by simp)
  rw [List.append_nil] at hnode
  exact hnode

theorem mem_keys_of_step {node : Node} {queue : Queue Bytes}
    {event : RetryQueue.Event Bytes} (proposal : Option ℕ)
    (hstep : RetryQueue.step pendingCapacity node.queue event = some queue)
    (hmarks : event.marks = []) {key : Bytes}
    (hkey : key ∈ Node.keys ⟨node.found, queue, proposal⟩) : key ∈ node.keys := by
  rcases List.mem_append.mp hkey with hfound | hwaiting
  · exact List.mem_append_left _ hfound
  · exact List.mem_append_right _ (RetryQueue.waiting_step hmarks hstep key hwaiting)

theorem effect_of_keep {system next : System Index} {id : UInt64}
    {event : RetryQueue.Event Bytes} {action : Action Index} (hmarks : event.marks = [])
    (hevent : ∀ accepted, event ≠ .returned accepted)
    (hmove : system.move id event (system.nodes id).proposal = some next) :
    Effect lib bucketSize system action next := by
  obtain ⟨queue, hqueue, rfl⟩ := Option.map_eq_some_iff.mp hmove
  exact effect_of_moves (.keep _ hqueue hevent)
    fun key hkey => mem_keys_of_step _ hqueue hmarks hkey

theorem effect_of_close {system next : System Index} {id : UInt64} {accepted : Bool}
    {action : Action Index}
    (hcommitted : accepted = true →
      ∃ number ∈ system.committed, (system.nodes id).proposal = some number)
    (hmove : system.move id (.returned accepted) none = some next) :
    Effect lib bucketSize system action next := by
  obtain ⟨queue, hqueue, rfl⟩ := Option.map_eq_some_iff.mp hmove
  exact effect_of_moves (.close hqueue hcommitted)
    fun key hkey => mem_keys_of_step _ hqueue rfl hkey

theorem effect_of_discover {system : System Index} {id : UInt64} {nowMs : Int64}
    {keys : List Bytes} {action : Action Index}
    (hkeys : ∀ key ∈ keys, Witnessed lib system.cluster (.expired id nowMs key)) :
    Effect lib bucketSize system action (system.discover id nowMs keys) := by
  refine .node (.stay _) ?_ ?_ (by simp)
  · intro key hkey
    rw [Node.keys, List.append_assoc, List.mem_append, List.mem_append] at hkey
    rcases hkey with hfound | hnew | hwaiting
    · exact .inl (List.mem_append_left _ hfound)
    · refine .inr ?_
      rw [List.map_map]
      exact List.mem_map.mpr ⟨key, hnew, rfl⟩
    · exact .inl (List.mem_append_right _ hwaiting)
  · intro cause hcause
    obtain ⟨key, hkey, rfl⟩ := List.mem_map.mp hcause
    exact hkeys key hkey

theorem log_of_step {streams next : PublishStream.System Index}
    {action : PublishStream.Action Index}
    (hstep : PublishStream.step lib bucketSize minAckQuorum streams action = some next)
    (hcommit : ∀ position, action ≠ .commit position) : next.log = streams.log := by
  cases action with
  | commit position => exact absurd rfl (hcommit position)
  | receive id frame isLeader refused =>
      simp only [PublishStream.step] at hstep
      split at hstep
      · split at hstep
        · cases hstep
          rfl
        · cases hstep
          rfl
        · split_ifs at hstep
          · cases hstep
            rfl
          · cases hstep
            rfl
      · cases hstep
  | drop position =>
      simp only [PublishStream.step] at hstep
      split at hstep
      · cases hstep
      · cases hstep
        rfl
  | complete id =>
      simp only [PublishStream.step] at hstep
      split at hstep
      · split_ifs at hstep
        cases hstep
        rfl
      · cases hstep
  | abort id =>
      simp only [PublishStream.step] at hstep
      split at hstep
      · cases hstep
        rfl
      · cases hstep
  | send id fails =>
      simp only [PublishStream.step] at hstep
      split at hstep
      · split_ifs at hstep
        · cases hstep
          rfl
        · cases hstep
          rfl
      · cases hstep
  | close id =>
      simp only [PublishStream.step] at hstep
      split at hstep
      · cases hstep
        rfl
      · cases hstep

theorem log_of_effect {cluster next : Cluster} {action : Failover.Action}
    (heffect : Failover.Effect cluster action next)
    (hcommit : ∀ entry, action ≠ .commit entry) : next.log = cluster.log := by
  cases heffect with
  | commit hafter => exact absurd rfl (hcommit _)
  | join => rfl
  | deliver hmember hbehind hcarries => rfl
  | reopen hmember hstart => rfl
  | install htarget horigin hlags hrecover => rfl

theorem nodesAfter_cases (cluster : Cluster) (nodes : UInt64 → Node)
    (action : Failover.Action) (id : UInt64) :
    nodesAfter cluster nodes action id = nodes id ∨
      nodesAfter cluster nodes action id = .fresh := by
  rw [nodesAfter]
  cases ends cluster action with
  | none => exact .inl rfl
  | some ended =>
      by_cases hid : id = ended
      · subst hid
        exact .inr (Function.update_self _ _ _)
      · exact .inl (Function.update_of_ne hid _ _)

theorem commit_of_step {cluster next : Cluster} {entry : Entry}
    (hstep : Failover.step cluster (.commit entry) = some next) :
    Journal.lastIndex 0 cluster.log < entry.index ∧
      next = { cluster with log := cluster.log ++ [entry] } := by
  rw [Failover.step] at hstep
  split_ifs at hstep with hafter
  cases hstep
  exact ⟨hafter, rfl⟩

theorem effect_of_step {system next : System Index} {action : Action Index}
    (hstep : step lib bucketSize minAckQuorum system action = some next) :
    Effect lib bucketSize system action next := by
  cases action with
  | stream action =>
      have hcommit : ∀ position, action ≠ .commit position := by
        rintro position rfl
        cases hstep
      have hmap : (PublishStream.step lib bucketSize minAckQuorum system.streams
          action).map (fun streams => { system with streams }) = some next := by
        cases action with
        | commit position => cases hstep
        | _ => exact hstep
      obtain ⟨streams, hstreams, rfl⟩ := Option.map_eq_some_iff.mp hmap
      exact .streams (PublishStream.effect_of_step hstreams) (log_of_step hstreams hcommit)
  | store position index =>
      rw [step] at hstep
      split at hstep
      · cases hstep
      · rename_i submission hpending
        split at hstep
        · rename_i streams cluster hstreams hcluster
          cases hstep
          obtain ⟨hafter, rfl⟩ := commit_of_step hcluster
          simp only [PublishStream.step, hpending, Option.some.injEq] at hstreams
          subst hstreams
          exact .store hpending hafter
        · cases hstep
  | replica action =>
      have hcommit : ∀ entry, action ≠ .commit entry := by
        rintro entry rfl
        cases hstep
      have hmap : (Failover.step system.cluster action).map (fun cluster =>
          { system with
            cluster
            nodes := nodesAfter system.cluster system.nodes action }) = some next := by
        cases action with
        | commit entry => cases hstep
        | _ => exact hstep
      obtain ⟨cluster, hcluster, rfl⟩ := Option.map_eq_some_iff.mp hmap
      have heffect := Failover.effect_of_step hcluster
      exact .replica heffect (log_of_effect heffect hcommit)
  | ack id consumer key =>
      rw [step] at hstep
      split at hstep
      · cases hstep
      · obtain ⟨moved, hmoved, rfl⟩ := Option.map_eq_some_iff.mp hstep
        obtain ⟨queue, hqueue, rfl⟩ := Option.map_eq_some_iff.mp hmoved
        refine .node (.keep _ hqueue (by simp)) ?_ (by simp [Witnessed]) (by simp +contextual)
        intro marked hmarked
        rcases List.mem_append.mp hmarked with hfound | hwaiting
        · exact .inl (List.mem_append_left _ hfound)
        · exact (mem_waiting_of_step hqueue hwaiting).imp_left
            (List.mem_append_right _)
  | pass id topic turns hub dispatcher nowMs =>
      rw [step] at hstep
      split at hstep
      · cases hstep
      · rename_i member hmember
        cases hstep
        refine effect_of_discover fun key hkey => ?_
        obtain ⟨value, msg, hvalue, hmsg, hold⟩ := exists_of_mem_expiredKeys hkey
        exact ⟨member, value, msg, hmember, hvalue, hmsg, hold⟩
  | sweep id nowMs =>
      rw [step] at hstep
      split at hstep
      · cases hstep
      · rename_i member hmember
        cases hstep
        refine effect_of_discover fun key hkey => ?_
        obtain ⟨value, msg, hvalue, hmsg, hold⟩ := exists_of_mem_sweep hkey
        rw [outlived_eq_isExpired] at hold
        exact ⟨member, value, msg, hmember, hvalue, hmsg, hold⟩
  | mark id position =>
      rw [step] at hstep
      split at hstep
      · cases hstep
      · rename_i key hkey
        obtain ⟨queue, hqueue, rfl⟩ := Option.map_eq_some_iff.mp hstep
        refine effect_of_moves (.keep _ hqueue (by simp)) fun other hother => ?_
        rcases List.mem_append.mp hother with hfound | hwaiting
        · exact List.mem_append_left _ (List.mem_of_mem_eraseIdx hfound)
        · rcases mem_waiting_of_step hqueue hwaiting with hold | hmarked
          · exact List.mem_append_right _ hold
          · obtain rfl := List.mem_singleton.mp hmarked
            exact List.mem_append_left _ (List.mem_of_getElem? hkey)
  | drain id => exact effect_of_keep rfl (by simp) hstep
  | propose id =>
      rw [step] at hstep
      split at hstep
      · rename_i batch hworking hproposal
        split at hstep
        · cases hstep
        · exact effect_of_close (by simp) hstep
        · rename_i cmd hmarshal
          cases hstep
          exact .propose hworking hmarshal
      · cases hstep
  | commit position index =>
      rw [step] at hstep
      split at hstep
      · cases hstep
      · rename_i number cmd hflight
        obtain ⟨cluster, hcluster, rfl⟩ := Option.map_eq_some_iff.mp hstep
        obtain ⟨hafter, rfl⟩ := commit_of_step hcluster
        exact .commit hflight hafter
  | drop position =>
      rw [step] at hstep
      split at hstep
      · cases hstep
      · cases hstep
        exact .drop position
  | complete id =>
      rw [step] at hstep
      split at hstep
      · cases hstep
      · rename_i number hproposal
        split_ifs at hstep with hcommitted
        exact effect_of_close (fun _ => ⟨number, hcommitted, hproposal⟩) hstep
  | abort id => exact effect_of_close (by simp) hstep
  | reenqueue id => exact effect_of_keep rfl (by simp) hstep
  | notify id => exact effect_of_keep rfl (by simp) hstep

end Effects

/-! ## What the log stores -/

theorem mem_ticketed_append {last : ℕ} {msgs more : List StoreBatchItem}
    {posted : ℕ × StoreBatchItem} (hposted : posted ∈ ticketed last msgs) :
    posted ∈ ticketed last (msgs ++ more) := by
  obtain ⟨before, after, rfl, hticket⟩ := mem_ticketed_iff.mp hposted
  exact mem_ticketed_iff.mpr ⟨before, after ++ more, by simp, hticket⟩

theorem eq_of_mem_ticketed {last : ℕ} {msgs : List StoreBatchItem}
    {first second : ℕ × StoreBatchItem} (hfirst : first ∈ ticketed last msgs)
    (hsecond : second ∈ ticketed last msgs) (hticket : first.1 = second.1) :
    first = second := by
  obtain ⟨before, after, hmsgs, hplace⟩ := mem_ticketed_iff.mp hfirst
  obtain ⟨others, rest, hsame, hother⟩ := mem_ticketed_iff.mp hsecond
  have hlength : before.length = others.length := by omega
  have htail := (List.append_inj (hmsgs.symm.trans hsame) hlength).2
  exact Prod.ext hticket (List.cons.inj htail).1

/-- What waits in a mailbox was posted to it. -/
theorem mem_ticketed_of_waiting {entries : List Entry} {posted : ℕ × StoreBatchItem}
    (hposted : posted ∈ (mailbox entries).waiting) :
    posted ∈ ticketed 0 (itemsOf entries) := by
  obtain ⟨first, entry, last, earlier, later, rfl, hitems, hticket, -⟩ :=
    Failover.mem_waiting_mailbox_iff.mp hposted
  refine mem_ticketed_iff.mpr ⟨itemsOf first ++ earlier, later ++ itemsOf last, ?_, ?_⟩
  · rw [← List.singleton_append, itemsOf_append, itemsOf_append, itemsOf_store hitems]
    simp
  · rw [hticket, List.length_append]
    omega

/-- A replica that has applied an entry has applied those in front of it. -/
theorem exists_split_applied {cluster : Cluster} (hsound : Failover.Sound cluster)
    {member : Failover.Member} {before after : List Entry} {entry : Entry}
    (hlog : cluster.log = before ++ entry :: after)
    (happlied : entry.index ≤ member.sm.lastApplied) :
    ∃ last, appliedBy cluster member = before ++ entry :: last ∧ last ⊆ after := by
  have hordered := hsound.ordered
  rw [hlog, List.map_append, List.map_cons, List.pairwise_append] at hordered
  refine ⟨after.filter fun other => other.index ≤ member.sm.lastApplied, ?_,
    fun other hother => List.mem_of_mem_filter hother⟩
  rw [appliedBy, hlog, List.filter_append, List.filter_cons_of_pos (by simpa using happlied),
    List.filter_eq_self.mpr]
  intro other hother
  have hlt := hordered.2.2 other.index (List.mem_map_of_mem hother) entry.index
    List.mem_cons_self
  exact decide_eq_true (UInt64.le_trans (UInt64.le_of_lt hlt) happlied)

section Commands

variable {lib : Libraries Index} {bucketSize : TimeBucketSize}

/-- A frame that was proposed became the encoding of its items. -/
theorem exists_items_of_commands {frame : PublishStream.Frame Index} {cmdBytes : Bytes}
    (hcommands : Commands lib bucketSize frame cmdBytes) :
    ∃ items, List.Forall₂ (Becomes lib bucketSize frame.nowMs) frame.batch.messages
        items ∧
      storeBatchItemSize * items.length ≤ maxAlloc ∧
      cmdBytes = encodeStoreBatch items := by
  obtain ⟨-, isLeader, hraft⟩ := hcommands
  rw [AllOrNothing.raftCommand] at hraft
  split_ifs at hraft
  obtain ⟨⟨⟩, hslice, hrest⟩ := bind_eq_ok_iff.mp hraft
  split at hrest
  · cases hrest
  · rename_i items hmarshal
    obtain ⟨more, hmore, hbecome⟩ := marshalMessages_appendItem.mp hmarshal
    rw [List.nil_append] at hmore
    subst hmore
    rw [marshalStoreBatchCmd_eq] at hrest
    cases hrest
    refine ⟨items, hbecome, ?_, rfl⟩
    rw [← hbecome.length_eq]
    exact_mod_cast (makeSlice_eq_ok_iff.mp hslice).2.2

/-- The command of a stream deletes nothing. -/
theorem not_deletes_of_commands {frame : PublishStream.Frame Index} {cmdBytes : Bytes}
    (hcommands : Commands lib bucketSize frame cmdBytes) (index : UInt64) (key : Bytes) :
    ¬ Deletes key ⟨index, cmdBytes⟩ := by
  rintro ⟨keys, hkeys, -⟩
  obtain ⟨items, -, -, rfl⟩ := exists_items_of_commands hcommands
  obtain ⟨-, -, rest, hsame⟩ := unmarshalDeleteBatchCmd_eq_ok_iff.mp hkeys
  simp [encodeStoreBatch, encodeDeleteBatch] at hsame

theorem lengths_of_marshal {batch : List Bytes} {cmd : Bytes}
    (hmarshal : marshalDeleteBatchCmd batch = .ok cmd) :
    ∀ key ∈ batch, key.length = 24 := by
  by_contra hbad
  push Not at hbad
  obtain ⟨length, herror⟩ := marshalDeleteBatchCmd_error hbad
  rw [hmarshal] at herror
  cases herror

/-- The command of a deleter deletes the keys it was made of. -/
theorem mem_of_deletes {batch : List Bytes} {cmd : Bytes}
    (hmarshal : marshalDeleteBatchCmd batch = .ok cmd)
    (hroom : batch.length ≤ pendingCapacity) {index : UInt64} {key : Bytes}
    (hdeletes : Deletes key ⟨index, cmd⟩) : key ∈ batch := by
  have hlengths := lengths_of_marshal hmarshal
  rw [marshalDeleteBatchCmd_eq hlengths, Except.ok.injEq] at hmarshal
  obtain ⟨keys, hkeys, hmem⟩ := hdeletes
  rw [← hmarshal, unmarshalDeleteBatchCmd_encode (mul_le_maxAlloc hroom) hlengths,
    Except.ok.injEq] at hkeys
  exact hkeys ▸ hmem

end Commands

/-! ## The invariant -/

def Caused (history : List Cause) (key : Bytes) : Prop :=
  ∃ cause ∈ history, cause.key = key

/-- The log stores an expired message under the key. -/
def Outlived (lib : Libraries Index) (log : List Entry) (nowMs : Int64) (key : Bytes) :
    Prop :=
  ∃ posted ∈ ticketed 0 (itemsOf log), tag posted = key ∧
    ∃ msg, lib.unmarshal posted.2.msg = some msg ∧ isExpired msg nowMs = true

structure Sound (lib : Libraries Index) (bucketSize : TimeBucketSize)
    (system : System Index) : Prop where
  streams : PublishStream.Sound lib bucketSize system.streams
  cluster : Failover.Sound system.cluster
  log : system.layout.map Prod.fst = system.cluster.log
  lays : Lays system.layout system.streams.log
  deletes : ∀ entry ∈ system.cluster.log, ∀ key, Deletes key entry →
    Caused system.history key
  flight : ∀ proposal ∈ system.flight, ∀ index key, Deletes key ⟨index, proposal.2⟩ →
    Caused system.history key
  held : ∀ id, ∀ key ∈ (system.nodes id).keys, Caused system.history key
  fits : ∀ id, RetryQueue.Fits pendingCapacity (system.nodes id).queue
  expired : ∀ id nowMs key, .expired id nowMs key ∈ system.history → key.length = 24 →
    Outlived lib system.cluster.log nowMs key

section Invariant

variable {lib : Libraries Index} {bucketSize : TimeBucketSize} {minAckQuorum : Bool}

theorem Caused.append {history : List Cause} {key : Bytes} (hcaused : Caused history key)
    (more : List Cause) : Caused (history ++ more) key := by
  obtain ⟨cause, hcause, hkey⟩ := hcaused
  exact ⟨cause, List.mem_append_left _ hcause, hkey⟩

theorem Outlived.append {log : List Entry} {nowMs : Int64} {key : Bytes}
    (houtlived : Outlived lib log nowMs key) (more : List Entry) :
    Outlived lib (log ++ more) nowMs key := by
  obtain ⟨posted, hposted, htag, hmsg⟩ := houtlived
  refine ⟨posted, ?_, htag, hmsg⟩
  rw [itemsOf_append]
  exact mem_ticketed_append hposted

/-- What a scan saw in the database of a replica stands in the log. -/
theorem outlived_of_witnessed {cluster : Cluster} (hsound : Failover.Sound cluster)
    {id : UInt64} {nowMs : Int64} {key : Bytes} (hlength : key.length = 24)
    (hwitnessed : Witnessed lib cluster (.expired id nowMs key)) :
    Outlived lib cluster.log nowMs key := by
  obtain ⟨member, value, msg, hmember, hvalue, hmsg, hold⟩ := hwitnessed
  obtain ⟨seen, htracks⟩ := hsound.members id member hmember
  obtain ⟨rest, hlog⟩ := htracks.cut
  obtain ⟨posted, hposted, htag, rfl⟩ := (htracks.holds key value hlength).mp hvalue
  have hseen : Outlived lib seen nowMs key :=
    ⟨posted, mem_ticketed_of_waiting hposted, htag, msg, hmsg, hold⟩
  rw [hlog]
  exact hseen.append rest

theorem sound_start : Sound lib bucketSize (.start bucketSize : System Index) where
  streams := PublishStream.sound_start
  cluster := ⟨.nil, by simp [System.start, Failover.Cluster.initial],
    by simp [System.start, Failover.Cluster.initial]⟩
  log := rfl
  lays := ⟨rfl, fun entry submission hmem => absurd hmem List.not_mem_nil⟩
  deletes entry hentry := absurd hentry List.not_mem_nil
  flight proposal hproposal := absurd hproposal List.not_mem_nil
  held id key hkey := absurd hkey List.not_mem_nil
  fits id := ⟨Nat.zero_le _, Nat.zero_le _⟩
  expired id nowMs key hexpired := absurd hexpired List.not_mem_nil

theorem lays_concat {layout : Layout} {log : List Submission} (hlays : Lays layout log)
    (entry : Entry) : Lays (layout ++ [(entry, none)]) log where
  log := by simp [hlays.log]
  cmds := by
    intro other submission hmem
    rcases List.mem_append.mp hmem with hold | hnew
    · exact hlays.cmds other submission hold
    · simp at hnew

theorem lays_concat_some {layout : Layout} {log : List Submission}
    (hlays : Lays layout log) (index : UInt64) (submission : Submission) :
    Lays (layout ++ [(⟨index, submission.cmdBytes⟩, some submission)])
      (log ++ [submission]) where
  log := by simp [hlays.log]
  cmds := by
    intro other found hmem
    rcases List.mem_append.mp hmem with hold | hnew
    · exact hlays.cmds other found hold
    · rw [List.mem_singleton, Prod.mk.injEq, Option.some.injEq] at hnew
      rw [hnew.1, hnew.2]

/-- A committed entry that deletes only keys with a cause. -/
theorem Sound.commit {system : System Index} (hsound : Sound lib bucketSize system)
    {entry : Entry} (hafter : Journal.lastIndex 0 system.cluster.log < entry.index)
    (hdeletes : ∀ key, Deletes key entry → Caused system.history key)
    {streams : PublishStream.System Index}
    (hstreams : PublishStream.Sound lib bucketSize streams) {mark : Option Submission}
    (hlays : Lays (system.layout ++ [(entry, mark)]) streams.log)
    {flight : List (ℕ × Bytes)} (hflight : flight ⊆ system.flight)
    (committed : List ℕ) :
    Sound lib bucketSize { system with
      streams
      cluster := { system.cluster with log := system.cluster.log ++ [entry] }
      flight
      committed
      layout := system.layout ++ [(entry, mark)] } where
  streams := hstreams
  cluster := hsound.cluster.commit hafter
  log := by simp [hsound.log]
  lays := hlays
  deletes := by
    intro other hother key hdelete
    rcases List.mem_append.mp hother with hold | hnew
    · exact hsound.deletes other hold key hdelete
    · obtain rfl := List.mem_singleton.mp hnew
      exact hdeletes key hdelete
  flight proposal hproposal := hsound.flight proposal (hflight hproposal)
  held := hsound.held
  fits := hsound.fits
  expired id nowMs key hexpired hlength :=
    (hsound.expired id nowMs key hexpired hlength).append [entry]

theorem Sound.node {system : System Index} (hsound : Sound lib bucketSize system)
    {id : UInt64} {node : Node} {causes : List Cause}
    (hfits : RetryQueue.Fits pendingCapacity node.queue)
    (hkeys : ∀ key ∈ node.keys, key ∈ (system.nodes id).keys ∨
      key ∈ causes.map Cause.key)
    (hcauses : ∀ cause ∈ causes, Witnessed lib system.cluster cause) :
    Sound lib bucketSize { system.setNode id node with
      history := system.history ++ causes } where
  streams := hsound.streams
  cluster := hsound.cluster
  log := hsound.log
  lays := hsound.lays
  deletes entry hentry key hdeletes :=
    (hsound.deletes entry hentry key hdeletes).append causes
  flight proposal hproposal index key hdeletes :=
    (hsound.flight proposal hproposal index key hdeletes).append causes
  held := by
    intro other key hkey
    change key ∈ (Function.update system.nodes id node other).keys at hkey
    by_cases hid : other = id
    · subst hid
      rw [Function.update_self] at hkey
      rcases hkeys key hkey with hold | hnew
      · exact (hsound.held other key hold).append causes
      · obtain ⟨cause, hcause, hsame⟩ := List.mem_map.mp hnew
        exact ⟨cause, List.mem_append_right _ hcause, hsame⟩
    · rw [Function.update_of_ne hid] at hkey
      exact (hsound.held other key hkey).append causes
  fits := by
    intro other
    change RetryQueue.Fits pendingCapacity (Function.update system.nodes id node other).queue
    by_cases hid : other = id
    · subst hid
      rw [Function.update_self]
      exact hfits
    · rw [Function.update_of_ne hid]
      exact hsound.fits other
  expired := by
    intro other nowMs key hexpired hlength
    rcases List.mem_append.mp hexpired with hold | hnew
    · exact hsound.expired other nowMs key hold hlength
    · exact outlived_of_witnessed hsound.cluster hlength (hcauses _ hnew)

theorem Sound.effect {system next : System Index} {action : Action Index}
    (hsound : Sound lib bucketSize system)
    (hclean : Clean .empty (requestsOf system.cluster.log))
    (hguard : Restarted system action)
    (heffect : Effect lib bucketSize system action next) :
    Sound lib bucketSize next := by
  cases heffect with
  | @streams _ streams heffect hlog =>
      exact { hsound with
        streams := hsound.streams.effect heffect
        lays := hlog ▸ hsound.lays }
  | @store _ position index submission hpending hafter =>
      have hmem : submission ∈ system.streams.pending ++ system.streams.log :=
        List.mem_append_left _ (List.mem_of_getElem? hpending)
      obtain ⟨frame, -, -, hcommands⟩ := hsound.streams.ledger.known submission hmem
      refine hsound.commit hafter ?_ (hsound.streams.effect (.commit hpending))
        (lays_concat_some hsound.lays index submission) (List.Subset.refl _) system.committed
      exact fun key hdeletes =>
        absurd hdeletes (not_deletes_of_commands hcommands index key)
  | @replica action cluster heffect hlog =>
      have hnodes := nodesAfter_cases system.cluster system.nodes action
      have hheld : ∀ id, ∀ key ∈ (nodesAfter system.cluster system.nodes action id).keys,
          Caused system.history key := by
        intro id key hkey
        rcases hnodes id with hsame | hfresh
        · exact hsound.held id key (hsame ▸ hkey)
        · rw [hfresh] at hkey
          cases hkey
      have hfits : ∀ id, RetryQueue.Fits pendingCapacity
          (nodesAfter system.cluster system.nodes action id).queue := by
        intro id
        rcases hnodes id with hsame | hfresh
        · exact hsame ▸ hsound.fits id
        · rw [hfresh]
          exact ⟨Nat.zero_le _, Nat.zero_le _⟩
      exact { hsound with
        cluster := hsound.cluster.effect hclean hguard heffect
        log := hsound.log.trans hlog.symm
        deletes := hlog ▸ hsound.deletes
        held := hheld
        fits := hfits
        expired := hlog ▸ hsound.expired }
  | @node _ id node causes hmoves hkeys hcauses hacked =>
      exact hsound.node (hmoves.fits (hsound.fits id)) hkeys hcauses
  | @propose _ id batch cmd hworking hmarshal =>
      have hnode : Sound lib bucketSize
          { system.setNode id
              { system.nodes id with proposal := some system.proposed } with
            history := system.history ++ [] } :=
        hsound.node (hsound.fits id) (fun key hkey => .inl hkey) (by simp)
      rw [List.append_nil] at hnode
      refine { hnode with flight := ?_ }
      intro proposal hproposal index key hdeletes
      rcases List.mem_append.mp hproposal with hold | hnew
      · exact hsound.flight proposal hold index key hdeletes
      · obtain rfl := List.mem_singleton.mp hnew
        have hroom : batch.length ≤ pendingCapacity := by
          have hinHand := (hsound.fits id).inHand
          rwa [hworking] at hinHand
        refine hsound.held id key (List.mem_append_right _ ?_)
        rw [RetryQueue.Queue.waiting, hworking]
        exact List.mem_append_left _ (mem_of_deletes hmarshal hroom hdeletes)
  | @commit _ position index number cmd hflight hafter =>
      refine hsound.commit hafter ?_ hsound.streams (lays_concat hsound.lays _)
        (List.eraseIdx_subset) _
      exact fun key hdeletes =>
        hsound.flight _ (List.mem_of_getElem? hflight) index key hdeletes
  | drop position =>
      exact { hsound with
        flight := fun proposal hproposal =>
          hsound.flight proposal (List.mem_of_mem_eraseIdx hproposal) }

theorem clean_of_effect {system next : System Index} {action : Action Index}
    (heffect : Effect lib bucketSize system action next)
    (hclean : Clean .empty (requestsOf next.cluster.log)) :
    Clean .empty (requestsOf system.cluster.log) := by
  cases heffect with
  | streams heffect hlog => exact hclean
  | store hpending hafter =>
      rw [Failover.requestsOf_append, Clean.append_iff] at hclean
      exact hclean.1
  | replica heffect hlog => exact Failover.clean_of_effect heffect hclean
  | node hmoves hkeys hcauses hacked => exact hclean
  | propose hworking hmarshal => exact hclean
  | commit hflight hafter =>
      rw [Failover.requestsOf_append, Clean.append_iff] at hclean
      exact hclean.1
  | drop position => exact hclean

theorem sound_run {actions : List (Action Index)} {system : System Index}
    (hrun : run (step lib bucketSize minAckQuorum) (.start bucketSize) actions =
      some system)
    (hmeets : Meets (step lib bucketSize minAckQuorum) Restarted (.start bucketSize)
      actions)
    (hclean : Clean .empty (requestsOf system.cluster.log)) :
    Sound lib bucketSize system := by
  let Inv (system : System Index) : Prop :=
    Clean .empty (requestsOf system.cluster.log) → Sound lib bucketSize system
  have hstart : Inv (.start bucketSize) := fun _ => sound_start
  have hstep : ∀ state action next, Inv state → Restarted state action →
      step lib bucketSize minAckQuorum state action = some next → Inv next := by
    intro state action next hinv hguard hstep hcleanNext
    have heffect := effect_of_step hstep
    have hcleanState := clean_of_effect heffect hcleanNext
    exact (hinv hcleanState).effect hcleanState hguard heffect
  exact run_invariant hstep hstart hmeets hrun hclean

end Invariant

end FutureQ.SharedLog
