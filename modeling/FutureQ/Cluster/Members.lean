import FutureQ.Core.OrderedStore

/-!
# Dragonboat's memberships

The membership of a Raft group is kept by Dragonboat and changed through its `NodeHost`,
which is not part of this repository.  `NodeHost` below lists what is assumed of it: which
requests it refuses, which it accepts, and what a granted one changes.  What the handlers
do is stated for every `NodeHost` of this kind.
-/

namespace FutureQ.Members

open FutureQ.OrderedStore

/-- The two Raft groups of a broker. -/
inductive Group where
  | metadata
  | event
  deriving DecidableEq, Repr

/-- What `SyncGetShardMembership` knows of a group: who votes, who listens, and who was
removed. -/
structure Membership where
  nodes : Contents UInt64 String
  nonVotings : Contents UInt64 String
  removed : List UInt64

/-- The fields of a request to join that the handlers read. -/
structure JoinRequest where
  nodeID : UInt64
  raftAddress : String
  deriving DecidableEq

namespace Membership

def Has (membership : Membership) (nodeID : UInt64) : Prop :=
  nodeID ∈ membership.nodes ∨ nodeID ∈ membership.nonVotings

instance instDecidableHas (membership : Membership) (nodeID : UInt64) :
    Decidable (membership.Has nodeID) :=
  inferInstanceAs (Decidable (_ ∨ _))

def withNonVoting (membership : Membership) (req : JoinRequest) : Membership :=
  { membership with
    nonVotings := membership.nonVotings.insert req.nodeID req.raftAddress }

def withReplica (membership : Membership) (req : JoinRequest) : Membership :=
  { membership with
    nodes := membership.nodes.insert req.nodeID req.raftAddress
    nonVotings := membership.nonVotings.erase req.nodeID }

def without (membership : Membership) (nodeID : UInt64) : Membership where
  nodes := membership.nodes.erase nodeID
  nonVotings := membership.nonVotings.erase nodeID
  removed := nodeID :: membership.removed

end Membership

/-- The membership requests of Dragonboat's `NodeHost`: the membership after a granted one,
`none` for a refusal. -/
structure NodeHost where
  addNonVoting : JoinRequest → Membership → Option Membership
  addReplica : JoinRequest → Membership → Option Membership
  deleteReplica : UInt64 → Membership → Option Membership
  /-- The address is well formed and, as Dragonboat compares addresses, not in use. -/
  addressFree : Membership → String → Prop
  /-- A member of either kind is not added as a non-voting one. -/
  rejects_member {req : JoinRequest} {membership : Membership} :
    membership.Has req.nodeID → addNonVoting req membership = none
  /-- A node that is new to the group is added. -/
  accepts_new {req : JoinRequest} {membership : Membership} :
    ¬ membership.Has req.nodeID → req.nodeID ∉ membership.removed →
      addressFree membership req.raftAddress → (addNonVoting req membership).isSome
  /-- A member with a vote is not promoted. -/
  rejects_voter {req : JoinRequest} {membership : Membership} :
    req.nodeID ∈ membership.nodes → addReplica req membership = none
  /-- A non-voting member is promoted under its own address. -/
  accepts_promotion {req : JoinRequest} {membership : Membership} :
    req.nodeID ∉ membership.nodes →
      membership.nonVotings[req.nodeID]? = some req.raftAddress →
      (addReplica req membership).isSome
  /-- A granted request changes what it names and nothing else. -/
  addNonVoting_effect {req : JoinRequest} {membership changed : Membership} :
    addNonVoting req membership = some changed → changed = membership.withNonVoting req
  addReplica_effect {req : JoinRequest} {membership changed : Membership} :
    addReplica req membership = some changed → changed = membership.withReplica req
  deleteReplica_effect {nodeID : UInt64} {membership changed : Membership} :
    deleteReplica nodeID membership = some changed → changed = membership.without nodeID

namespace NodeHost

variable (host : NodeHost) {req : JoinRequest} {membership changed : Membership}

/-- The group accepts the node as a new non-voting member. -/
def Takes (req : JoinRequest) (membership : Membership) : Prop :=
  (host.addNonVoting req membership).isSome

/-- The node is new to the group: no member, never removed, with an address of its own. -/
structure New (req : JoinRequest) (membership : Membership) : Prop where
  stranger : ¬ membership.Has req.nodeID
  kept : req.nodeID ∉ membership.removed
  address : host.addressFree membership req.raftAddress

/-- A node that was removed and is no member is refused. -/
structure RefusesRemoved : Prop where
  nonVoting : ∀ {req : JoinRequest} {membership : Membership},
    req.nodeID ∈ membership.removed → ¬ membership.Has req.nodeID →
      host.addNonVoting req membership = none
  replica : ∀ {req : JoinRequest} {membership : Membership},
    req.nodeID ∈ membership.removed → ¬ membership.Has req.nodeID →
      host.addReplica req membership = none

variable {host}

theorem New.takes (hnew : host.New req membership) : host.Takes req membership :=
  host.accepts_new hnew.stranger hnew.kept hnew.address

theorem addNonVoting_eq_some_iff :
    host.addNonVoting req membership = some changed ↔
      host.Takes req membership ∧ changed = membership.withNonVoting req := by
  constructor
  · intro hchange
    exact ⟨by rw [Takes, hchange]; rfl, host.addNonVoting_effect hchange⟩
  · rintro ⟨htakes, rfl⟩
    obtain ⟨changed, hchange⟩ := Option.isSome_iff_exists.mp htakes
    rw [hchange, host.addNonVoting_effect hchange]

theorem Takes.stranger (htakes : host.Takes req membership) :
    ¬ membership.Has req.nodeID := by
  intro hhas
  rw [Takes, host.rejects_member hhas] at htakes
  cases htakes

/-- A node that was just added is promoted. -/
theorem Takes.addReplica (htakes : host.Takes req membership) :
    host.addReplica req (membership.withNonVoting req) =
      some ((membership.withNonVoting req).withReplica req) := by
  have hlistener :
      (membership.withNonVoting req).nonVotings[req.nodeID]? = some req.raftAddress := by
    simp [Membership.withNonVoting]
  have hvoter : req.nodeID ∉ (membership.withNonVoting req).nodes :=
    fun hvoter => htakes.stranger (.inl hvoter)
  have hgranted := host.accepts_promotion hvoter hlistener
  obtain ⟨changed, hchange⟩ := Option.isSome_iff_exists.mp hgranted
  rw [hchange, host.addReplica_effect hchange]

end NodeHost

/-! ## An instance -/

/-- A `NodeHost` that also refuses removed nodes and the removal of the last voter, and
compares addresses letter by letter. -/
def NodeHost.strict : NodeHost where
  addNonVoting req membership :=
    if membership.Has req.nodeID ∨ req.nodeID ∈ membership.removed ∨
        req.raftAddress ∈ membership.nodes.values ++ membership.nonVotings.values then none
    else some (membership.withNonVoting req)
  addReplica req membership :=
    if req.nodeID ∈ membership.nodes ∨
        membership.nonVotings[req.nodeID]? ≠ some req.raftAddress then none
    else some (membership.withReplica req)
  deleteReplica nodeID membership :=
    if membership.nodes.keys = [nodeID] then none else some (membership.without nodeID)
  addressFree membership address :=
    address ∉ membership.nodes.values ++ membership.nonVotings.values
  rejects_member hhas := if_pos (.inl hhas)
  accepts_new hstranger hkept hfree := by
    rw [if_neg (not_or.mpr ⟨hstranger, not_or.mpr ⟨hkept, hfree⟩⟩)]
    rfl
  rejects_voter hvoter := if_pos (.inl hvoter)
  accepts_promotion hvoter hlistener := by
    rw [if_neg (not_or.mpr ⟨hvoter, not_not.mpr hlistener⟩)]
    rfl
  addNonVoting_effect hchange :=
    (Option.some.inj (Option.ite_none_left_eq_some.mp hchange).2).symm
  addReplica_effect hchange :=
    (Option.some.inj (Option.ite_none_left_eq_some.mp hchange).2).symm
  deleteReplica_effect hchange :=
    (Option.some.inj (Option.ite_none_left_eq_some.mp hchange).2).symm

theorem NodeHost.strict_refusesRemoved : NodeHost.strict.RefusesRemoved where
  nonVoting hremoved _ := if_pos (.inr (.inl hremoved))
  replica {req membership} _ hstranger := by
    refine if_pos (.inr fun hlistener => hstranger (.inr ?_))
    exact Std.ExtTreeMap.mem_iff_isSome_getElem?.mpr (by rw [hlistener]; rfl)

end FutureQ.Members
