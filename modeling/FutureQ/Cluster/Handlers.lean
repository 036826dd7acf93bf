import FutureQ.Cluster.Join
import FutureQ.Core.Transition

/-!
# The membership handlers together

Any node of the cluster serves `JoinCluster`, `LeaveCluster`, `JoinMetadata` and
`LeaveMetadata`, and nothing keeps two calls apart: the requests of one come between those
of another, and a call that fails leaves behind what it has done.  What holds the two
groups together is the order of the requests.  A node joins the metadata group before the
event shard and leaves the event shard before the metadata group, and a `NodeHost` that
`RefusesRemoved` does not take a node back that was removed.

`simulates_joinCluster` connects the requests of a call with the handler of
`FutureQ.Cluster.Join`.  `event_members_in_metadata` draws the conclusion for every
interleaving: a node of the event shard is a node of the metadata group, and a voter of
the one is a voter of the other, unless somebody called `LeaveMetadata` for it.
-/

namespace FutureQ.Handlers

open FutureQ.OrderedStore
open FutureQ.Effects
open FutureQ.Transition
open FutureQ.Members
open FutureQ.Join

/-- What a handler asks of a group, one after the other. -/
inductive Request where
  | addNonVoting (group : Group) (req : JoinRequest)
  | waitForCatchUp (group : Group) (nodeID : UInt64)
  | addReplica (group : Group) (req : JoinRequest)
  | deleteReplica (group : Group) (nodeID : UInt64)

def Request.group : Request → Group
  | .addNonVoting group _ => group
  | .waitForCatchUp group _ => group
  | .addReplica group _ => group
  | .deleteReplica group _ => group

/-- The group after the request, if it is granted. -/
def Request.change (host : NodeHost) : Request → Membership → Option Membership
  | .addNonVoting _ req, membership => host.addNonVoting req membership
  | .waitForCatchUp _ nodeID, membership =>
      if nodeID ∈ membership.nonVotings then some membership else none
  | .addReplica _ req, membership => host.addReplica req membership
  | .deleteReplica _ nodeID, membership => host.deleteReplica nodeID membership

inductive Call where
  | joinCluster (req : JoinRequest)
  | leaveCluster (nodeID : UInt64)
  | joinMetadata (req : JoinRequest)
  | leaveMetadata (nodeID : UInt64)
  deriving DecidableEq

/-- The bodies of the four handlers. -/
def Call.requests : Call → List Request
  | .joinCluster req =>
      [.addNonVoting .metadata req, .addNonVoting .event req,
        .waitForCatchUp .event req.nodeID, .waitForCatchUp .metadata req.nodeID,
        .addReplica .metadata req, .addReplica .event req]
  | .leaveCluster nodeID => [.deleteReplica .event nodeID, .deleteReplica .metadata nodeID]
  | .joinMetadata req => [.addNonVoting .metadata req]
  | .leaveMetadata nodeID => [.deleteReplica .metadata nodeID]

/-- A call under way; `next` is the position of its next request. -/
structure Running where
  call : Call
  next : ℕ

/-- `begun` and `succeeded` are the calls that were made and those that were answered with
`Success: true`. -/
structure System where
  groups : Cluster
  calls : List Running
  begun : List Call
  succeeded : List Call

/-- Both groups are bootstrapped with `InitialMembers`. -/
def System.start (initialMembers : Contents UInt64 String) : System where
  groups _ := ⟨initialMembers, ∅, []⟩
  calls := []
  begun := []
  succeeded := []

inductive Action where
  | begin (call : Call)
  | advance (position : ℕ) (fault : Fault)

/-- A granted request takes the call to its next one; the last one answers it. -/
def System.proceed (system : System) (position : ℕ) (running : Running)
    (groups : Cluster) : System :=
  if running.next + 1 < running.call.requests.length then
    { system with
      groups
      calls := system.calls.set position { running with next := running.next + 1 } }
  else
    { system with
      groups
      calls := system.calls.eraseIdx position
      succeeded := running.call :: system.succeeded }

/-- `lost` stands for whatever ends a call without a change: the request is refused or does
not arrive, or a wait is over. -/
def step (host : NodeHost) (system : System) : Action → Option System
  | .begin call =>
      some { system with
        calls := system.calls ++ [⟨call, 0⟩]
        begun := call :: system.begun }
  | .advance position fault =>
      match system.calls[position]? with
      | none => none
      | some running =>
          match running.call.requests[running.next]?, fault with
          | none, _ => none
          | some _, .lost =>
              some { system with calls := system.calls.eraseIdx position }
          | some request, .unanswered =>
              some { system with
                groups := Function.update system.groups request.group
                  ((request.change host (system.groups request.group)).getD
                    (system.groups request.group))
                calls := system.calls.eraseIdx position }
          | some request, .none =>
              (request.change host (system.groups request.group)).map fun membership =>
                system.proceed position running
                  (Function.update system.groups request.group membership)

/-! ## A join that nobody disturbs -/

section Undisturbed

variable {host : NodeHost} {req : JoinRequest} {groups : Cluster} {position : ℕ}
  {request : Request}

/-- The call is the only one. -/
def onlyJoin (req : JoinRequest) (groups : Cluster) (position : ℕ) : System where
  groups
  calls := [⟨.joinCluster req, position⟩]
  begun := [.joinCluster req]
  succeeded := []

/-- From a position on the call leaves the groups as the handler does. -/
def Simulates (host : NodeHost) (req : JoinRequest) (position : ℕ) (handler : Handler) :
    Prop :=
  ∀ groups, ∃ actions next,
    run (step host) (onlyJoin req groups position) actions = some next ∧
      next.groups = (exec handler groups).2

/-- One statement of the handler is one request of the call. -/
structure Follows (host : NodeHost) (groups : Cluster) (request : Request)
    (handler : Handler) : Prop where
  granted : ∀ next, exec handler groups = (.ok (), next) →
    ∃ membership, request.change host (groups request.group) = some membership ∧
      Function.update groups request.group membership = next
  failed : ∀ err next, exec handler groups = (.error err, next) →
    next = groups ∨ next = Function.update groups request.group
      ((request.change host (groups request.group)).getD (groups request.group))

theorem follows_syncRequest (fault : Fault) :
    Follows host groups request (syncRequest (request.change host) fault request.group) := by
  constructor
  · intro next hexec
    obtain ⟨-, changed, hchanged, rfl⟩ := exec_syncRequest_eq_ok_iff.mp hexec
    exact ⟨changed, hchanged, rfl⟩
  · intro err next hexec
    cases fault with
    | lost =>
        cases hexec
        exact .inl rfl
    | none =>
        cases hfound : request.change host (groups request.group) with
        | none =>
            simp only [syncRequest, exec_bind, exec_get, hfound, exec_throw,
              Prod.mk.injEq] at hexec
            exact .inl hexec.2.symm
        | some changed => simp [syncRequest, exec_bind, hfound] at hexec
    | unanswered =>
        simp only [syncRequest, exec_bind, exec_get, exec_set, exec_throw,
          Prod.mk.injEq] at hexec
        exact .inr hexec.2.symm

theorem follows_waitForCatchUp (group : Group) (nodeID : UInt64) (ticks : List Tick) :
    Follows host groups (.waitForCatchUp group nodeID)
      (waitForCatchUp nodeID group ticks) := by
  constructor
  · intro next hexec
    obtain ⟨-, hlisted, rfl⟩ := exec_waitForCatchUp_eq_ok_iff.mp hexec
    exact ⟨next group, if_pos hlisted, Function.update_eq_self group next⟩
  · intro err next hexec
    have hsame := exec_waitForCatchUp_snd nodeID group ticks groups
    rw [hexec] at hsame
    exact .inl hsame

/-- A statement that fails ends the call. -/
theorem Follows.exists_run_of_error {handler : Handler}
    (hfollows : Follows host groups request handler)
    (hnext : (Call.joinCluster req).requests[position]? = some request)
    {err : JoinError} {cluster : Cluster}
    (hexec : exec handler groups = (.error err, cluster)) :
    ∃ actions next, run (step host) (onlyJoin req groups position) actions = some next ∧
      next.groups = cluster := by
  rcases hfollows.failed err cluster hexec with rfl | rfl
  · refine ⟨[.advance 0 .lost], { onlyJoin req cluster position with calls := [] }, ?_, rfl⟩
    simp [run, step, onlyJoin, hnext]
  · refine ⟨[.advance 0 .unanswered], { onlyJoin req groups position with
      groups := Function.update groups request.group
        ((request.change host (groups request.group)).getD (groups request.group))
      calls := [] }, ?_, rfl⟩
    simp [run, step, onlyJoin, hnext]

theorem Simulates.bind {first rest : Handler}
    (hfollows : ∀ groups, Follows host groups request first)
    (hnext : (Call.joinCluster req).requests[position]? = some request)
    (hmore : position + 1 < (Call.joinCluster req).requests.length)
    (hrest : Simulates host req (position + 1) rest) :
    Simulates host req position (first >>= fun _ => rest) := by
  intro groups
  rw [exec_bind]
  rcases hexec : exec first groups with ⟨err | value, cluster⟩
  · exact (hfollows groups).exists_run_of_error hnext hexec
  · obtain ⟨membership, hchange, rfl⟩ := (hfollows groups).granted _ hexec
    have hstep : step host (onlyJoin req groups position) (.advance 0 .none) =
        some (onlyJoin req (Function.update groups request.group membership)
          (position + 1)) := by
      simp [step, onlyJoin, hnext, hchange, System.proceed, hmore]
    obtain ⟨actions, next, hrun, hgroups⟩ :=
      hrest (Function.update groups request.group membership)
    exact ⟨_, next, run_cons_eq_some.mpr ⟨_, hstep, hrun⟩, hgroups⟩

theorem Simulates.last {handler : Handler}
    (hfollows : ∀ groups, Follows host groups request handler)
    (hnext : (Call.joinCluster req).requests[position]? = some request)
    (hlast : ¬ position + 1 < (Call.joinCluster req).requests.length) :
    Simulates host req position handler := by
  intro groups
  rcases hexec : exec handler groups with ⟨err | value, cluster⟩
  · exact (hfollows groups).exists_run_of_error hnext hexec
  · obtain ⟨membership, hchange, rfl⟩ := (hfollows groups).granted _ hexec
    refine ⟨[.advance 0 .none], { onlyJoin req groups position with
      groups := Function.update groups request.group membership
      calls := []
      succeeded := [.joinCluster req] }, ?_, rfl⟩
    simp [run, step, onlyJoin, hnext, hchange, System.proceed, hlast]

/-- The requests of a join, with nothing in between, are `JoinCluster`. -/
theorem simulates_joinCluster (host : NodeHost) (req : JoinRequest) (attempt : Attempt) :
    Simulates host req 0 (ClusterHandler.joinCluster host req attempt) := by
  have hadd : ∀ group fault groups, Follows host groups (.addNonVoting group req)
      (syncRequest (host.addNonVoting req) fault group) :=
    fun _ fault _ => follows_syncRequest fault
  have hpromote : ∀ group fault groups, Follows host groups (.addReplica group req)
      (syncRequest (host.addReplica req) fault group) :=
    fun _ fault _ => follows_syncRequest fault
  refine .bind (hadd .metadata _) rfl (by simp [Call.requests]) ?_
  refine .bind (hadd .event _) rfl (by simp [Call.requests]) ?_
  refine .bind (fun _ => follows_waitForCatchUp _ _ _) rfl (by simp [Call.requests]) ?_
  refine .bind (fun _ => follows_waitForCatchUp _ _ _) rfl (by simp [Call.requests]) ?_
  refine .bind (hpromote .metadata _) rfl (by simp [Call.requests]) ?_
  exact .last (hpromote .event _) rfl (by simp [Call.requests])

end Undisturbed

/-! ## One request -/

/-- The node is in the group or was removed from it. -/
def Known (membership : Membership) (nodeID : UInt64) : Prop :=
  membership.Has nodeID ∨ nodeID ∈ membership.removed

/-- The node has a vote in the group or was removed from it. -/
def Voted (membership : Membership) (nodeID : UInt64) : Prop :=
  nodeID ∈ membership.nodes ∨ nodeID ∈ membership.removed

theorem Voted.known {membership : Membership} {nodeID : UInt64}
    (hvoted : Voted membership nodeID) : Known membership nodeID :=
  hvoted.imp_left .inl

/-- What stays true of a group whatever is asked of it. -/
structure Extends (before after : Membership) : Prop where
  removed : ∀ nodeID ∈ before.removed, nodeID ∈ after.removed
  known : ∀ nodeID, Known before nodeID → Known after nodeID
  voted : ∀ nodeID, Voted before nodeID → Voted after nodeID

theorem Extends.refl (membership : Membership) : Extends membership membership :=
  ⟨fun _ => id, fun _ => id, fun _ => id⟩

/-- No removed node is listed. -/
def Clear (membership : Membership) : Prop :=
  ∀ nodeID ∈ membership.removed, ¬ membership.Has nodeID

/-- What a granted request leaves behind for good. -/
def Request.Granted (groups : Cluster) : Request → Prop
  | .addNonVoting group req => Known (groups group) req.nodeID
  | .waitForCatchUp group nodeID => Known (groups group) nodeID
  | .addReplica group req => Voted (groups group) req.nodeID
  | .deleteReplica group nodeID => nodeID ∈ (groups group).removed

section Requests

variable {host : NodeHost} {membership next : Membership} {req : JoinRequest}
  {nodeID target : UInt64}

theorem change_waitForCatchUp_eq_some_iff {group : Group} :
    (Request.waitForCatchUp group nodeID).change host membership = some next ↔
      nodeID ∈ membership.nonVotings ∧ next = membership := by
  rw [Request.change, Option.ite_none_right_eq_some, Option.some.injEq]
  exact and_congr_right fun _ => eq_comm

theorem mem_insert_or_erase {table other : Contents UInt64 String} {address : String}
    (hmem : nodeID ∈ table ∨ nodeID ∈ other) :
    nodeID ∈ table.insert target address ∨ nodeID ∈ other.erase target := by
  by_cases hsame : target = nodeID
  · exact .inl (by simp [hsame])
  · exact hmem.imp (fun hmem => by simp [hmem]) fun hmem => by simp [hmem, hsame]

theorem mem_erase_or_mem_cons {table : Contents UInt64 String} {removed : List UInt64}
    (hmem : nodeID ∈ table ∨ nodeID ∈ removed) :
    nodeID ∈ table.erase target ∨ nodeID ∈ target :: removed := by
  by_cases hsame : target = nodeID
  · exact .inr (by simp [hsame])
  · exact hmem.imp (fun hmem => by simp [hmem, hsame]) fun hmem => by simp [hmem]

theorem mem_of_mem_insert {table : Contents UInt64 String} {address : String}
    (hne : target ≠ nodeID) (hmem : nodeID ∈ table.insert target address) :
    nodeID ∈ table := by
  simpa [hne] using hmem

/-- A member of either kind was one before or is the node that was added. -/
theorem has_of_withNonVoting (hne : req.nodeID ≠ nodeID)
    (hhas : (membership.withNonVoting req).Has nodeID) : membership.Has nodeID :=
  hhas.imp_right (mem_of_mem_insert hne)

theorem has_of_withReplica (hne : req.nodeID ≠ nodeID)
    (hhas : (membership.withReplica req).Has nodeID) : membership.Has nodeID :=
  hhas.imp (mem_of_mem_insert hne) Std.ExtTreeMap.mem_of_mem_erase

theorem has_of_without (hhas : (membership.without target).Has nodeID) :
    membership.Has nodeID :=
  hhas.imp Std.ExtTreeMap.mem_of_mem_erase Std.ExtTreeMap.mem_of_mem_erase

theorem extends_change {request : Request}
    (hchange : request.change host membership = some next) : Extends membership next := by
  cases request with
  | addNonVoting group req =>
      obtain rfl := host.addNonVoting_effect hchange
      refine ⟨fun _ => id, fun nodeID => Or.imp_left (Or.imp_right fun hlistener => ?_),
        fun _ => id⟩
      exact Std.ExtTreeMap.mem_insert.mpr (.inr hlistener)
  | waitForCatchUp group nodeID =>
      obtain ⟨-, rfl⟩ := change_waitForCatchUp_eq_some_iff.mp hchange
      exact .refl next
  | addReplica group req =>
      obtain rfl := host.addReplica_effect hchange
      refine ⟨fun _ => id, fun nodeID => Or.imp_left mem_insert_or_erase,
        fun nodeID => Or.imp_left fun hvoter => ?_⟩
      exact Std.ExtTreeMap.mem_insert.mpr (.inr hvoter)
  | deleteReplica group nodeID =>
      obtain rfl := host.deleteReplica_effect hchange
      refine ⟨fun _ => List.mem_cons_of_mem _, fun other hknown => ?_,
        fun other => mem_erase_or_mem_cons⟩
      rcases hknown with (hvoter | hlistener) | hremoved
      · exact (mem_erase_or_mem_cons (.inl hvoter)).imp_left .inl
      · exact (mem_erase_or_mem_cons (.inl hlistener)).imp_left .inr
      · exact .inr (List.mem_cons_of_mem _ hremoved)

/-- A removed node that is not listed is not listed again. -/
theorem Clear.change (hrefuses : host.RefusesRemoved) {request : Request}
    (hclear : Clear membership) (hchange : request.change host membership = some next) :
    Clear next := by
  cases request with
  | addNonVoting group req =>
      obtain rfl := host.addNonVoting_effect hchange
      intro nodeID hremoved hhas
      have hne : req.nodeID ≠ nodeID := by
        rintro rfl
        have hrefused : host.addNonVoting req membership = none :=
          hrefuses.nonVoting hremoved (hclear _ hremoved)
        rw [Request.change, hrefused] at hchange
        cases hchange
      exact hclear nodeID hremoved (has_of_withNonVoting hne hhas)
  | waitForCatchUp group nodeID =>
      obtain ⟨-, rfl⟩ := change_waitForCatchUp_eq_some_iff.mp hchange
      exact hclear
  | addReplica group req =>
      obtain rfl := host.addReplica_effect hchange
      intro nodeID hremoved hhas
      have hne : req.nodeID ≠ nodeID := by
        rintro rfl
        have hrefused : host.addReplica req membership = none :=
          hrefuses.replica hremoved (hclear _ hremoved)
        rw [Request.change, hrefused] at hchange
        cases hchange
      exact hclear nodeID hremoved (has_of_withReplica hne hhas)
  | deleteReplica group nodeID =>
      obtain rfl := host.deleteReplica_effect hchange
      intro other hremoved hhas
      rcases List.mem_cons.mp hremoved with rfl | hbefore
      · simp [Membership.without, Membership.Has] at hhas
      · exact hclear other hbefore (has_of_without hhas)

/-- A granted request has its effect. -/
theorem granted_change {groups : Cluster} {request : Request}
    (hchange : request.change host (groups request.group) = some next) :
    request.Granted (Function.update groups request.group next) := by
  cases request with
  | addNonVoting group req =>
      obtain rfl := host.addNonVoting_effect hchange
      simp [Request.Granted, Request.group, Known, Membership.Has, Membership.withNonVoting]
  | waitForCatchUp group nodeID =>
      obtain ⟨hlisted, rfl⟩ := change_waitForCatchUp_eq_some_iff.mp hchange
      rw [Request.Granted, Request.group, Function.update_self]
      exact .inl (.inr hlisted)
  | addReplica group req =>
      obtain rfl := host.addReplica_effect hchange
      simp [Request.Granted, Request.group, Voted, Membership.withReplica]
  | deleteReplica group nodeID =>
      obtain rfl := host.deleteReplica_effect hchange
      simp [Request.Granted, Request.group, Membership.without]

theorem Request.Granted.mono {before after : Cluster} {request : Request}
    (hgranted : request.Granted before)
    (hextends : ∀ group, Extends (before group) (after group)) :
    request.Granted after := by
  cases request with
  | addNonVoting group req => exact (hextends group).known _ hgranted
  | waitForCatchUp group nodeID => exact (hextends group).known _ hgranted
  | addReplica group req => exact (hextends group).voted _ hgranted
  | deleteReplica group nodeID => exact (hextends group).removed _ hgranted

end Requests

/-! ## The order of the requests -/

section Order

variable {call : Call} {position : ℕ} {req : JoinRequest}

theorem mem_take_of_getElem? {α : Type} {items : List α} {first second : α} (count : ℕ)
    (hfirst : first ∈ items.take count) (hsecond : second ∉ items.take count)
    (hnext : items[position]? = some second) : first ∈ items.take position := by
  have hlate : count ≤ position := by
    by_contra hlt
    rw [← List.getElem?_take_of_lt (not_le.mp hlt)] at hnext
    exact hsecond (List.mem_of_getElem? hnext)
  exact List.take_subset_take_left items hlate hfirst

/-- A node is added to the metadata group before it is added to the event shard. -/
theorem mem_take_of_addNonVoting
    (hnext : call.requests[position]? = some (.addNonVoting .event req)) :
    .addNonVoting .metadata req ∈ call.requests.take position := by
  have hmem := List.mem_of_getElem? hnext
  cases call with
  | joinCluster other =>
      obtain rfl : req = other := by simpa [Call.requests] using hmem
      exact mem_take_of_getElem? 1 (by simp [Call.requests]) (by simp [Call.requests]) hnext
  | leaveCluster other => simp [Call.requests] at hmem
  | joinMetadata other => simp [Call.requests] at hmem
  | leaveMetadata other => simp [Call.requests] at hmem

/-- The vote in the metadata group comes before the vote in the event shard. -/
theorem mem_take_of_addReplica
    (hnext : call.requests[position]? = some (.addReplica .event req)) :
    .addReplica .metadata req ∈ call.requests.take position := by
  have hmem := List.mem_of_getElem? hnext
  cases call with
  | joinCluster other =>
      obtain rfl : req = other := by simpa [Call.requests] using hmem
      exact mem_take_of_getElem? 5 (by simp [Call.requests]) (by simp [Call.requests]) hnext
  | leaveCluster other => simp [Call.requests] at hmem
  | joinMetadata other => simp [Call.requests] at hmem
  | leaveMetadata other => simp [Call.requests] at hmem

/-- A node is removed from the event shard before it is removed from the metadata group,
except by `LeaveMetadata`. -/
theorem mem_take_of_deleteReplica {nodeID : UInt64}
    (hnext : call.requests[position]? = some (.deleteReplica .metadata nodeID)) :
    .deleteReplica .event nodeID ∈ call.requests.take position ∨
      call = .leaveMetadata nodeID := by
  have hmem := List.mem_of_getElem? hnext
  cases call with
  | joinCluster other => simp [Call.requests] at hmem
  | leaveCluster other =>
      obtain rfl : nodeID = other := by simpa [Call.requests] using hmem
      exact .inl (mem_take_of_getElem? 1 (by simp [Call.requests])
        (by simp [Call.requests]) hnext)
  | joinMetadata other => simp [Call.requests] at hmem
  | leaveMetadata other =>
      obtain rfl : nodeID = other := by simpa [Call.requests] using hmem
      exact .inr rfl

end Order

/-! ## The two groups -/

/-- What the groups have in common. -/
structure Coherent (begun : List Call) (groups : Cluster) : Prop where
  clear : ∀ group, Clear (groups group)
  member : ∀ nodeID, (groups .event).Has nodeID → Known (groups .metadata) nodeID
  voter : ∀ nodeID ∈ (groups .event).nodes, Voted (groups .metadata) nodeID
  removed : ∀ nodeID ∈ (groups .metadata).removed,
    nodeID ∈ (groups .event).removed ∨ .leaveMetadata nodeID ∈ begun

section Coherent

variable {host : NodeHost} {begun : List Call} {groups : Cluster} {membership : Membership}

theorem Coherent.metadata (hcoherent : Coherent begun groups)
    (hextends : Extends (groups .metadata) membership) (hclear : Clear membership)
    (hremoved : ∀ nodeID ∈ membership.removed, nodeID ∈ (groups .metadata).removed ∨
      nodeID ∈ (groups .event).removed ∨ .leaveMetadata nodeID ∈ begun) :
    Coherent begun (Function.update groups .metadata membership) where
  clear
    | .metadata => hclear
    | .event => hcoherent.clear .event
  member nodeID hhas := hextends.known nodeID (hcoherent.member nodeID hhas)
  voter nodeID hvoter := hextends.voted nodeID (hcoherent.voter nodeID hvoter)
  removed nodeID hmem := (hremoved nodeID hmem).elim (hcoherent.removed nodeID) id

theorem Coherent.event (hcoherent : Coherent begun groups) (hclear : Clear membership)
    (hmember : ∀ nodeID, membership.Has nodeID →
      (groups .event).Has nodeID ∨ Known (groups .metadata) nodeID)
    (hvoter : ∀ nodeID ∈ membership.nodes,
      nodeID ∈ (groups .event).nodes ∨ Voted (groups .metadata) nodeID)
    (hremoved : ∀ nodeID ∈ (groups .event).removed, nodeID ∈ membership.removed) :
    Coherent begun (Function.update groups .event membership) where
  clear
    | .metadata => hcoherent.clear .metadata
    | .event => hclear
  member nodeID hhas := (hmember nodeID hhas).elim (hcoherent.member nodeID) id
  voter nodeID hmem := (hvoter nodeID hmem).elim (hcoherent.voter nodeID) id
  removed nodeID hmem := (hcoherent.removed nodeID hmem).imp_left (hremoved nodeID)

/-- A request in its place keeps the groups together. -/
theorem Coherent.change (hrefuses : host.RefusesRemoved)
    (hcoherent : Coherent begun groups) {call : Call} (hbegun : call ∈ begun)
    {position : ℕ}
    (hgranted : ∀ request ∈ call.requests.take position, request.Granted groups)
    {request : Request} (hnext : call.requests[position]? = some request)
    (hchange : request.change host (groups request.group) = some membership) :
    Coherent begun (Function.update groups request.group membership) := by
  have hextends := extends_change hchange
  have hclear := (hcoherent.clear request.group).change hrefuses hchange
  cases request with
  | addNonVoting group req =>
      obtain rfl := host.addNonVoting_effect hchange
      cases group with
      | metadata => exact hcoherent.metadata hextends hclear fun _ => .inl
      | event =>
          have hknown := hgranted _ (mem_take_of_addNonVoting hnext)
          refine hcoherent.event hclear (fun nodeID hhas => ?_) (fun _ => .inl) fun _ => id
          by_cases hsame : req.nodeID = nodeID
          · exact .inr (hsame ▸ hknown)
          · exact .inl (has_of_withNonVoting hsame hhas)
  | waitForCatchUp group nodeID =>
      obtain ⟨-, rfl⟩ := change_waitForCatchUp_eq_some_iff.mp hchange
      rw [Function.update_eq_self]
      exact hcoherent
  | addReplica group req =>
      obtain rfl := host.addReplica_effect hchange
      cases group with
      | metadata => exact hcoherent.metadata hextends hclear fun _ => .inl
      | event =>
          have hvoted := hgranted _ (mem_take_of_addReplica hnext)
          refine hcoherent.event hclear (fun nodeID hhas => ?_) (fun nodeID hvoter => ?_)
            fun _ => id
          · by_cases hsame : req.nodeID = nodeID
            · exact .inr (hsame ▸ hvoted.known)
            · exact .inl (has_of_withReplica hsame hhas)
          · by_cases hsame : req.nodeID = nodeID
            · exact .inr (hsame ▸ hvoted)
            · exact .inl (mem_of_mem_insert hsame hvoter)
  | deleteReplica group nodeID =>
      obtain rfl := host.deleteReplica_effect hchange
      cases group with
      | metadata =>
          refine hcoherent.metadata hextends hclear fun other hremoved => ?_
          rcases List.mem_cons.mp hremoved with rfl | hbefore
          · refine .inr ?_
            rcases mem_take_of_deleteReplica hnext with hdone | rfl
            · exact .inl (hgranted _ hdone)
            · exact .inr hbegun
          · exact .inl hbefore
      | event =>
          exact hcoherent.event hclear (fun _ hhas => .inl (has_of_without hhas))
            (fun _ hvoter => .inl (Std.ExtTreeMap.mem_of_mem_erase hvoter))
            hextends.removed

end Coherent

/-! ## Runs -/

structure Sound (system : System) : Prop where
  coherent : Coherent system.begun system.groups
  running : ∀ running ∈ system.calls, running.call ∈ system.begun ∧
    ∀ request ∈ running.call.requests.take running.next, request.Granted system.groups
  succeeded : ∀ call ∈ system.succeeded, ∀ request ∈ call.requests,
    request.Granted system.groups

theorem sound_start (initialMembers : Contents UInt64 String) :
    Sound (.start initialMembers) where
  coherent :=
    { clear := fun _ _ hremoved => absurd hremoved List.not_mem_nil
      member := fun _ => .inl
      voter := fun _ => .inl
      removed := fun _ hremoved => absurd hremoved List.not_mem_nil }
  running _ hrunning := absurd hrunning List.not_mem_nil
  succeeded _ hcall := absurd hcall List.not_mem_nil

section Runs

variable {host : NodeHost} {system : System}

theorem extends_update {groups : Cluster} {changed : Group} {membership : Membership}
    (hextends : Extends (groups changed) membership) (group : Group) :
    Extends (groups group) (Function.update groups changed membership group) := by
  by_cases hsame : group = changed
  · subst hsame
    rw [Function.update_self]
    exact hextends
  · rw [Function.update_of_ne hsame]
    exact .refl _

/-- Calls that go on or end keep what they have been granted. -/
theorem Sound.move (hsound : Sound system) {groups : Cluster}
    (hcoherent : Coherent system.begun groups)
    (hextends : ∀ group, Extends (system.groups group) (groups group))
    {calls : List Running} (hcalls : ∀ running ∈ calls, running ∈ system.calls) :
    Sound { system with groups, calls } where
  coherent := hcoherent
  running running hrunning :=
    ⟨(hsound.running running (hcalls running hrunning)).1, fun request hrequest =>
      ((hsound.running running (hcalls running hrunning)).2 request hrequest).mono hextends⟩
  succeeded call hcall request hrequest :=
    (hsound.succeeded call hcall request hrequest).mono hextends

theorem Sound.proceed (hrefuses : host.RefusesRemoved) (hsound : Sound system)
    {position : ℕ} {running : Running} (hrunning : system.calls[position]? = some running)
    {request : Request} (hnext : running.call.requests[running.next]? = some request)
    {membership : Membership}
    (hchange : request.change host (system.groups request.group) = some membership) :
    Sound (system.proceed position running
      (Function.update system.groups request.group membership)) := by
  obtain ⟨hbegun, hgranted⟩ := hsound.running running (List.mem_of_getElem? hrunning)
  have hcoherent := hsound.coherent.change hrefuses hbegun hgranted hnext hchange
  have hextends := extends_update (extends_change hchange)
  have hdone : ∀ other ∈ running.call.requests.take (running.next + 1),
      other.Granted (Function.update system.groups request.group membership) := by
    intro other hother
    rw [List.take_add_one, hnext, List.mem_append] at hother
    rcases hother with hbefore | hthis
    · exact (hgranted other hbefore).mono hextends
    · rw [List.mem_singleton.mp hthis]
      exact granted_change hchange
  rw [System.proceed]
  split_ifs with hmore
  · have hmoved := hsound.move hcoherent hextends fun _ => id
    refine ⟨hcoherent, fun other hother => ?_, hmoved.succeeded⟩
    rcases List.mem_or_eq_of_mem_set hother with hbefore | rfl
    · exact hmoved.running other hbefore
    · exact ⟨hbegun, hdone⟩
  · have hmoved := hsound.move hcoherent hextends
      fun _ => List.mem_of_mem_eraseIdx (i := position)
    refine ⟨hcoherent, hmoved.running, fun call hcall => ?_⟩
    rcases List.mem_cons.mp hcall with rfl | hbefore
    · rwa [List.take_of_length_le (not_lt.mp hmore)] at hdone
    · exact hmoved.succeeded call hbefore

/-- A request whose answer is lost ends the call, with or without its change. -/
theorem Sound.unanswered (hrefuses : host.RefusesRemoved) (hsound : Sound system)
    {position : ℕ} {running : Running} (hrunning : system.calls[position]? = some running)
    {request : Request} (hnext : running.call.requests[running.next]? = some request) :
    Sound { system with
      groups := Function.update system.groups request.group
        ((request.change host (system.groups request.group)).getD (system.groups request.group))
      calls := system.calls.eraseIdx position } := by
  obtain ⟨hbegun, hgranted⟩ := hsound.running running (List.mem_of_getElem? hrunning)
  cases hchange : request.change host (system.groups request.group) with
  | none =>
      rw [Option.getD_none, Function.update_eq_self]
      exact hsound.move hsound.coherent (fun _ => .refl _)
        fun _ => List.mem_of_mem_eraseIdx
  | some membership =>
      exact hsound.move (hsound.coherent.change hrefuses hbegun hgranted hnext hchange)
        (extends_update (extends_change hchange)) fun _ => List.mem_of_mem_eraseIdx

theorem Sound.step (hrefuses : host.RefusesRemoved) {next : System} {action : Action}
    (hsound : Sound system) (hstep : Handlers.step host system action = some next) : Sound next := by
  cases action with
  | begin call =>
      cases hstep
      refine ⟨⟨hsound.coherent.clear, hsound.coherent.member, hsound.coherent.voter,
        fun nodeID hremoved => ?_⟩, fun running hrunning => ?_, hsound.succeeded⟩
      · exact (hsound.coherent.removed nodeID hremoved).imp_right (List.mem_cons_of_mem _)
      · rcases List.mem_append.mp hrunning with hbefore | hnew
        · exact (hsound.running running hbefore).imp_left (List.mem_cons_of_mem _)
        · rw [List.mem_singleton.mp hnew]
          exact ⟨List.mem_cons_self, fun _ hrequest => absurd hrequest List.not_mem_nil⟩
  | advance position fault =>
      cases hrunning : system.calls[position]? with
      | none => simp [Handlers.step, hrunning] at hstep
      | some running =>
          cases hnext : running.call.requests[running.next]? with
          | none => simp [Handlers.step, hrunning, hnext] at hstep
          | some request =>
              simp only [Handlers.step, hrunning, hnext] at hstep
              cases fault with
              | none =>
                  obtain ⟨membership, hchange, rfl⟩ := Option.map_eq_some_iff.mp hstep
                  exact hsound.proceed hrefuses hrunning hnext hchange
              | lost =>
                  cases hstep
                  exact hsound.move hsound.coherent (fun _ => .refl _)
                    fun _ => List.mem_of_mem_eraseIdx
              | unanswered =>
                  cases hstep
                  exact hsound.unanswered hrefuses hrunning hnext

theorem sound_run (hrefuses : host.RefusesRemoved)
    {initialMembers : Contents UInt64 String} {actions : List Action}
    (hrun : run (step host) (.start initialMembers) actions = some system) :
    Sound system :=
  run_preserves (fun _ _ _ hsound hstep => hsound.step hrefuses hstep) (sound_start _) hrun

end Runs

/-- Whatever the handlers of all nodes do at the same time, and wherever they fail: a node
of the event shard is a node of the metadata group, with a vote if it has one in the shard,
unless `LeaveMetadata` was called for the node.  A join that was answered with success has
made the node a voter of both groups if it was not removed since; a node whose leave was
answered with success is in neither group and never comes back. -/
theorem event_members_in_metadata {host : NodeHost} (hrefuses : host.RefusesRemoved)
    {initialMembers : Contents UInt64 String} {actions : List Action} {system : System}
    (hrun : run (step host) (.start initialMembers) actions = some system) :
    (∀ nodeID, .leaveMetadata nodeID ∉ system.begun →
      ((system.groups .event).Has nodeID → (system.groups .metadata).Has nodeID) ∧
      (nodeID ∈ (system.groups .event).nodes →
        nodeID ∈ (system.groups .metadata).nodes)) ∧
    (∀ req, .joinCluster req ∈ system.succeeded → ∀ group,
      req.nodeID ∉ (system.groups group).removed →
        req.nodeID ∈ (system.groups group).nodes) ∧
    ∀ nodeID, .leaveCluster nodeID ∈ system.succeeded → ∀ group,
      ¬ (system.groups group).Has nodeID := by
  have hsound := sound_run hrefuses hrun
  have hcoherent := hsound.coherent
  refine ⟨fun nodeID hstays => ?_, fun req hjoined group hkept => ?_,
    fun nodeID hleft group => ?_⟩
  · have hkept : (system.groups .event).Has nodeID →
        nodeID ∉ (system.groups .metadata).removed := by
      intro hhas hremoved
      rcases hcoherent.removed nodeID hremoved with hevent | hbegun
      · exact hcoherent.clear .event nodeID hevent hhas
      · exact hstays hbegun
    exact ⟨fun hhas => (hcoherent.member nodeID hhas).resolve_right (hkept hhas),
      fun hvoter => (hcoherent.voter nodeID hvoter).resolve_right (hkept (.inl hvoter))⟩
  · have hgranted := hsound.succeeded _ hjoined
    cases group with
    | metadata =>
        exact (hgranted (.addReplica .metadata req) (by simp [Call.requests])).resolve_right
          hkept
    | event =>
        exact (hgranted (.addReplica .event req) (by simp [Call.requests])).resolve_right
          hkept
  · have hgranted := hsound.succeeded _ hleft
    refine hcoherent.clear group nodeID ?_
    cases group with
    | metadata => exact hgranted (.deleteReplica .metadata nodeID) (by simp [Call.requests])
    | event => exact hgranted (.deleteReplica .event nodeID) (by simp [Call.requests])

/-- Node 1 of nodes 1 and 3 leaves while node 2 joins. -/
def leaveDuringJoin : List Action :=
  [.begin (.joinCluster ⟨2, "b"⟩), .advance 0 .none, .begin (.leaveCluster 1),
    .advance 1 .none, .advance 0 .none, .advance 0 .none, .advance 0 .none,
    .advance 0 .none, .advance 1 .none, .advance 0 .none]

def nodesOneThree : Contents UInt64 String :=
  ((∅ : Contents UInt64 String).insert 1 "a").insert 3 "c"

theorem event_members_in_metadata_twoCalls :
    ∃ system, run (step .strict) (.start nodesOneThree) leaveDuringJoin = some system ∧
      (∀ group, 2 ∈ (system.groups group).nodes) ∧
      ∀ group, ¬ (system.groups group).Has 1 := by
  have hexists : ∃ system,
      run (step .strict) (.start nodesOneThree) leaveDuringJoin = some system ∧
        .joinCluster ⟨2, "b"⟩ ∈ system.succeeded ∧ .leaveCluster 1 ∈ system.succeeded ∧
        2 ∉ (system.groups .metadata).removed ∧ 2 ∉ (system.groups .event).removed :=
    exists_finish_of_any (by decide +kernel)
  obtain ⟨system, hrun, hjoined, hleft, hmetadata, hevent⟩ := hexists
  obtain ⟨-, hvoter, hgone⟩ :=
    event_members_in_metadata NodeHost.strict_refusesRemoved hrun
  refine ⟨system, hrun, fun group => hvoter _ hjoined group ?_, hgone 1 hleft⟩
  cases group with
  | metadata => exact hmetadata
  | event => exact hevent

end FutureQ.Handlers
