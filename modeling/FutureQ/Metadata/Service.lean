import FutureQ.Metadata.StateMachine
import FutureQ.Core.Transition

/-!
# Publishing the topology

Every node runs a service that reads the membership of a shard, reads its
leader, takes the next number of its own epoch counter and proposes the record
to the metadata group.  Calls run concurrently, on one node and on many, and a
proposal that is on its way may be applied at any later time or never.  The
state machine replaces the record of a shard without looking at it, so what was
read first may be applied last, and the counters of two nodes say nothing about
each other.
-/

namespace FutureQ.TopologyService

open FutureQ.ByteOrder
open FutureQ.GoRuntime
open FutureQ.OrderedStore
open FutureQ.Transition
open FutureQ.Metadata

/-- `dragonboat.Membership`, without the removed nodes. -/
structure Membership where
  configChangeID : UInt64
  nodes : NodeMap
  nonVotings : NodeMap
  witnesses : NodeMap

/-- How far a call of `publishTopology` has come. -/
inductive Phase where
  | started
  | membership (membership : Membership)
  | leader (membership : Membership) (leaderID term : UInt64) (grpcAddrs : NodeMap)
  | numbered (topo : ShardTopology)
  | proposed (cmd : Bytes)

/-- The call has read the membership it will publish. -/
def Phase.active : Phase → Bool
  | .started => false
  | _ => true

structure Call where
  service : ℕ
  shardID : UInt64
  phase : Phase

/-- The membership that Dragonboat currently answers for each shard, the epoch
counter of each service, the calls that are not finished, the state of the
metadata group and the records it replaced, newest first. -/
structure Cluster where
  membership : UInt64 → Membership
  epochs : ℕ → UInt64
  calls : Contents ℕ Call
  sm : MetadataStateMachine
  replaced : List (ShardTopology × ShardTopology)

def newCluster : Cluster :=
  ⟨fun _ => ⟨0, ∅, ∅, ∅⟩, fun _ => 0, ∅, newMetadataStateMachine, []⟩

def Cluster.setCall (cluster : Cluster) (id : ℕ) (call : Call) : Cluster :=
  { cluster with calls := cluster.calls.insert id call }

def Cluster.endCall (cluster : Cluster) (id : ℕ) : Cluster :=
  { cluster with calls := cluster.calls.erase id }

/-- `readLeader` carries what `GetLeaderID` answers, nothing for an error or an
invalid answer, and what the address registry of the node holds. -/
inductive Action where
  | reconfigure (shardID : UInt64) (membership : Membership)
  | begin (id service : ℕ) (shardID : UInt64)
  | readMembership (id : ℕ) (answered : Bool)
  | readLeader (id : ℕ) (answer : Option (UInt64 × UInt64)) (grpcAddrs : NodeMap)
  | takeEpoch (id : ℕ)
  | propose (id : ℕ) (order : RecordOrder)
  | apply (id : ℕ)
  | lose (id : ℕ)
  | registerNodeAddr (nodeID : UInt64) (grpcAddr : Bytes)

def leaderAddr (leaderID : UInt64) (grpcAddrs : NodeMap) : Bytes :=
  if 0 < leaderID then (grpcAddrs[leaderID]?).getD [] else []

def topologyOf (shardID leaderID term epoch : UInt64) (membership : Membership)
    (grpcAddrs : NodeMap) : ShardTopology where
  shardID := shardID
  leaderID := leaderID
  leaderAddr := leaderAddr leaderID grpcAddrs
  term := term
  epoch := epoch
  nodes := membership.nodes
  nonVotings := membership.nonVotings
  witnesses := membership.witnesses
  grpcAddrs := grpcAddrs
  configChangeID := membership.configChangeID

/-- The record that a command replaces, with the one it puts there. -/
def replacement (s : MetadataStateMachine) (cmd : Bytes) :
    Option (ShardTopology × ShardTopology) :=
  match unmarshalUpdateTopologyCmd cmd with
  | .ok topo => (s.topology.shards[topo.shardID]?).map fun old => (old, topo)
  | .error _ => none

def step (cluster : Cluster) : Action → Option Cluster
  | .reconfigure shardID membership =>
      if (cluster.membership shardID).configChangeID ≤ membership.configChangeID then
        some { cluster with
          membership := Function.update cluster.membership shardID membership }
      else none
  | .begin id service shardID =>
      match cluster.calls[id]? with
      | some _ => none
      | none => some (cluster.setCall id ⟨service, shardID, .started⟩)
  | .readMembership id answered =>
      match cluster.calls[id]? with
      | some ⟨service, shardID, .started⟩ =>
          if answered then
            some (cluster.setCall id
              ⟨service, shardID, .membership (cluster.membership shardID)⟩)
          else some (cluster.endCall id)
      | _ => none
  | .readLeader id answer grpcAddrs =>
      match cluster.calls[id]? with
      | some ⟨service, shardID, .membership membership⟩ =>
          let (leaderID, term) := answer.getD (0, 0)
          some (cluster.setCall id
            ⟨service, shardID, .leader membership leaderID term grpcAddrs⟩)
      | _ => none
  | .takeEpoch id =>
      match cluster.calls[id]? with
      | some ⟨service, shardID, .leader membership leaderID term grpcAddrs⟩ =>
          let epoch := cluster.epochs service + 1
          let cluster := { cluster with
            epochs := Function.update cluster.epochs service epoch }
          some (cluster.setCall id ⟨service, shardID,
            .numbered (topologyOf shardID leaderID term epoch membership grpcAddrs)⟩)
      | _ => none
  | .propose id order =>
      match cluster.calls[id]? with
      | some ⟨service, shardID, .numbered topo⟩ =>
          match marshalUpdateTopologyCmd order topo with
          | .ok cmd => some (cluster.setCall id ⟨service, shardID, .proposed cmd⟩)
          | .error _ => some (cluster.endCall id)
      | _ => none
  | .apply id =>
      match cluster.calls[id]? with
      | some ⟨_, _, .proposed cmd⟩ =>
          match update cluster.sm cmd with
          | .ok (sm, _) =>
              some { cluster.endCall id with
                sm
                replaced := (replacement cluster.sm cmd).toList ++ cluster.replaced }
          | .error _ => none
      | _ => none
  | .lose id =>
      match cluster.calls[id]? with
      | some ⟨_, _, .proposed _⟩ => some (cluster.endCall id)
      | _ => none
  | .registerNodeAddr nodeID grpcAddr =>
      match marshalRegisterNodeAddrCmd nodeID grpcAddr with
      | .ok cmd =>
          match update cluster.sm cmd with
          | .ok (sm, _) => some { cluster with sm }
          | .error _ => none
      | .error _ => none

/-- No replaced record had a larger `ConfigChangeID` than the new one, nor an
epoch that is not smaller. -/
def NeverBackwards (cluster : Cluster) : Prop :=
  ∀ pair ∈ cluster.replaced,
    pair.1.configChangeID ≤ pair.2.configChangeID ∧ pair.1.epoch < pair.2.epoch

instance (cluster : Cluster) : Decidable (NeverBackwards cluster) :=
  inferInstanceAs (Decidable (∀ pair ∈ cluster.replaced, _ ∧ _))

/-- A call reads the membership of a shard while no other call for that shard is
between its own read and the end of its proposal, and takes an epoch while the
counter of its service is not behind the stored record and not used up. -/
def Serialised (cluster : Cluster) : Action → Prop
  | .readMembership id _ => ∀ call ∈ cluster.calls[id]?,
      ∀ entry ∈ cluster.calls.toList, entry.1 ≠ id →
        entry.2.shardID = call.shardID → entry.2.phase.active = false
  | .takeEpoch id => ∀ call ∈ cluster.calls[id]?,
      (cluster.epochs call.service).toNat + 1 < 2 ^ 64 ∧
        ∀ stored ∈ cluster.sm.topology.shards[call.shardID]?,
          stored.epoch ≤ cluster.epochs call.service
  | _ => True

instance (cluster : Cluster) (action : Action) :
    Decidable (Serialised cluster action) :=
  match action with
  | .readMembership _ _ =>
      inferInstanceAs (Decidable (∀ call ∈ _, ∀ entry ∈ _, _ → _ → _))
  | .takeEpoch _ => inferInstanceAs (Decidable (∀ call ∈ _, _ ∧ ∀ stored ∈ _, _))
  | .reconfigure _ _ | .begin _ _ _ | .readLeader _ _ _ | .propose _ _ | .apply _
  | .lose _ | .registerNodeAddr _ _ => isTrue trivial

/-! ## What a step can do -/

inductive Effect (cluster : Cluster) : Action → Cluster → Prop
  | reconfigure {shardID : UInt64} {membership : Membership}
      (hgrows : (cluster.membership shardID).configChangeID ≤
        membership.configChangeID) :
      Effect cluster (.reconfigure shardID membership)
        { cluster with
          membership := Function.update cluster.membership shardID membership }
  | begin {id service : ℕ} {shardID : UInt64} (hnew : cluster.calls[id]? = none) :
      Effect cluster (.begin id service shardID)
        (cluster.setCall id ⟨service, shardID, .started⟩)
  | readMembership {id service : ℕ} {shardID : UInt64}
      (hcall : cluster.calls[id]? = some ⟨service, shardID, .started⟩) :
      Effect cluster (.readMembership id true)
        (cluster.setCall id
          ⟨service, shardID, .membership (cluster.membership shardID)⟩)
  | readLeader {id service : ℕ} {shardID : UInt64} {membership : Membership}
      {answer : Option (UInt64 × UInt64)} {grpcAddrs : NodeMap} {leaderID term : UInt64}
      (hanswer : answer.getD (0, 0) = (leaderID, term))
      (hcall : cluster.calls[id]? = some ⟨service, shardID, .membership membership⟩) :
      Effect cluster (.readLeader id answer grpcAddrs)
        (cluster.setCall id
          ⟨service, shardID, .leader membership leaderID term grpcAddrs⟩)
  | takeEpoch {id service : ℕ} {shardID leaderID term : UInt64}
      {membership : Membership} {grpcAddrs : NodeMap}
      (hcall : cluster.calls[id]? =
        some ⟨service, shardID, .leader membership leaderID term grpcAddrs⟩) :
      Effect cluster (.takeEpoch id)
        ({ cluster with
            epochs := Function.update cluster.epochs service
              (cluster.epochs service + 1) }.setCall id
          ⟨service, shardID, .numbered (topologyOf shardID leaderID term
            (cluster.epochs service + 1) membership grpcAddrs)⟩)
  | propose {id service : ℕ} {shardID : UInt64} {topo : ShardTopology}
      {order : RecordOrder}
      (hcall : cluster.calls[id]? = some ⟨service, shardID, .numbered topo⟩) :
      Effect cluster (.propose id order)
        (cluster.setCall id
          ⟨service, shardID, .proposed (fieldsOf order topo).encode⟩)
  | apply {id service : ℕ} {shardID : UInt64} {cmd : Bytes}
      {sm : MetadataStateMachine}
      (hcall : cluster.calls[id]? = some ⟨service, shardID, .proposed cmd⟩)
      (heffect : Metadata.Effect cluster.sm cmd sm) :
      Effect cluster (.apply id)
        { cluster.endCall id with
          sm
          replaced := (replacement cluster.sm cmd).toList ++ cluster.replaced }
  | finish {id : ℕ} {action : Action} : Effect cluster action (cluster.endCall id)
  | registerNodeAddr {nodeID : UInt64} {grpcAddr : Bytes}
      {sm : MetadataStateMachine}
      (hshards : sm.topology.shards = cluster.sm.topology.shards) :
      Effect cluster (.registerNodeAddr nodeID grpcAddr) { cluster with sm }

/-- A registration leaves the shard records alone. -/
theorem shards_of_register {s next : MetadataStateMachine} {nodeID : UInt64}
    {grpcAddr : Bytes}
    (heffect : Metadata.Effect s (encodeRegister nodeID grpcAddr) next) :
    next.topology.shards = s.topology.shards := by
  cases heffect with
  | refused => rfl
  | addr _ => rfl
  | shard hdecode =>
      obtain ⟨fields, -, -, rest, hdata⟩ :=
        unmarshalUpdateTopologyCmd_eq_ok_iff.mp hdecode
      simp [encodeRegister, Fields.encode] at hdata

theorem effect_of_update {s next : MetadataStateMachine} {cmd : Bytes}
    {value : UInt64} (hupdate : update s cmd = .ok (next, value)) :
    Metadata.Effect s cmd next := by
  obtain ⟨other, result, hother, heffect⟩ := exists_update s cmd
  rw [hother] at hupdate
  cases hupdate
  exact heffect

theorem effect_of_step {cluster next : Cluster} {action : Action}
    (hstep : step cluster action = some next) : Effect cluster action next := by
  cases action with
  | reconfigure shardID membership =>
      simp only [step, Option.ite_none_right_eq_some, Option.some.injEq] at hstep
      obtain ⟨hgrows, rfl⟩ := hstep
      exact .reconfigure hgrows
  | begin id service shardID =>
      simp only [step] at hstep
      split at hstep
      · cases hstep
      · cases hstep
        exact .begin ‹_›
  | readMembership id answered =>
      simp only [step] at hstep
      split at hstep
      · cases answered with
        | true =>
            cases hstep
            exact .readMembership ‹_›
        | false =>
            cases hstep
            exact .finish
      · cases hstep
  | readLeader id answer grpcAddrs =>
      simp only [step] at hstep
      split at hstep
      · cases hstep
        exact .readLeader rfl ‹_›
      · cases hstep
  | takeEpoch id =>
      simp only [step] at hstep
      split at hstep
      · cases hstep
        exact .takeEpoch ‹_›
      · cases hstep
  | propose id order =>
      simp only [step, marshalUpdateTopologyCmd_eq] at hstep
      split at hstep
      · cases hstep
        exact .propose ‹_›
      · cases hstep
  | apply id =>
      simp only [step] at hstep
      split at hstep
      · split at hstep
        · cases hstep
          exact .apply ‹_› (effect_of_update ‹_›)
        · cases hstep
      · cases hstep
  | lose id =>
      simp only [step] at hstep
      split at hstep
      · cases hstep
        exact .finish
      · cases hstep
  | registerNodeAddr nodeID grpcAddr =>
      simp only [step, marshalRegisterNodeAddrCmd_eq] at hstep
      split at hstep
      · cases hstep
        exact .registerNodeAddr (shards_of_register (effect_of_update ‹_›))
      · cases hstep

/-! ## The invariant -/

/-- A `ConfigChangeID` that was current and is not behind the stored record. -/
def Fresh (cluster : Cluster) (shardID configChangeID : UInt64) : Prop :=
  configChangeID ≤ (cluster.membership shardID).configChangeID ∧
    ∀ stored, cluster.sm.topology.shards[shardID]? = some stored →
      stored.configChangeID ≤ configChangeID

def Newer (cluster : Cluster) (shardID epoch : UInt64) : Prop :=
  ∀ stored, cluster.sm.topology.shards[shardID]? = some stored →
    stored.epoch < epoch

/-- A record that may replace the stored one. -/
structure Ready (cluster : Cluster) (shardID : UInt64) (topo : ShardTopology) :
    Prop where
  shard : topo.shardID = shardID
  fresh : Fresh cluster shardID topo.configChangeID
  newer : Newer cluster shardID topo.epoch

def Call.Sound (cluster : Cluster) (call : Call) : Prop :=
  match call.phase with
  | .started => True
  | .membership membership | .leader membership _ _ _ =>
      Fresh cluster call.shardID membership.configChangeID
  | .numbered topo => Ready cluster call.shardID topo
  | .proposed cmd => ∀ topo, unmarshalUpdateTopologyCmd cmd = .ok topo →
      Ready cluster call.shardID topo

/-- Calls for one shard are active one at a time, each holds a record that may
replace the stored one, and no stored record is ahead of Dragonboat. -/
structure Sound (cluster : Cluster) : Prop where
  calls : ∀ (id : ℕ) (call : Call), cluster.calls[id]? = some call →
    call.Sound cluster
  alone : ∀ (id other : ℕ) (call rival : Call),
    cluster.calls[id]? = some call → cluster.calls[other]? = some rival →
    call.phase.active = true → rival.phase.active = true →
    call.shardID = rival.shardID → id = other
  stored : ∀ (shardID : UInt64) (topo : ShardTopology),
    cluster.sm.topology.shards[shardID]? = some topo →
    topo.configChangeID ≤ (cluster.membership shardID).configChangeID
  forwards : NeverBackwards cluster

section Frame

variable {cluster next : Cluster} {shardID : UInt64}

theorem Fresh.mono {configChangeID : UInt64}
    (hfresh : Fresh cluster shardID configChangeID)
    (hgrows : (cluster.membership shardID).configChangeID ≤
      (next.membership shardID).configChangeID)
    (hsame : next.sm.topology.shards[shardID]? =
      cluster.sm.topology.shards[shardID]?) :
    Fresh next shardID configChangeID := by
  refine ⟨UInt64.le_trans hfresh.1 hgrows, ?_⟩
  rw [hsame]
  exact hfresh.2

theorem Ready.mono {topo : ShardTopology} (hready : Ready cluster shardID topo)
    (hgrows : (cluster.membership shardID).configChangeID ≤
      (next.membership shardID).configChangeID)
    (hsame : next.sm.topology.shards[shardID]? =
      cluster.sm.topology.shards[shardID]?) : Ready next shardID topo := by
  refine ⟨hready.shard, hready.fresh.mono hgrows hsame, ?_⟩
  unfold Newer
  rw [hsame]
  exact hready.newer

/-- A call is not affected by what happens to other shards. -/
theorem Call.Sound.mono {call : Call} (hsound : call.Sound cluster)
    (hgrows : (cluster.membership call.shardID).configChangeID ≤
      (next.membership call.shardID).configChangeID)
    (hsame : next.sm.topology.shards[call.shardID]? =
      cluster.sm.topology.shards[call.shardID]?) : call.Sound next := by
  obtain ⟨service, shardID, phase⟩ := call
  cases phase with
  | started => trivial
  | membership membership => exact Fresh.mono hsound hgrows hsame
  | leader membership leaderID term grpcAddrs => exact Fresh.mono hsound hgrows hsame
  | numbered topo => exact Ready.mono hsound hgrows hsame
  | proposed cmd => exact fun topo hdecode => (hsound topo hdecode).mono hgrows hsame

end Frame

section Steps

variable {cluster : Cluster}

theorem Sound.of_calls (hsound : Sound cluster) {next : Cluster}
    (hmembership : next.membership = cluster.membership) (hsm : next.sm = cluster.sm)
    (hreplaced : next.replaced = cluster.replaced)
    (hcalls : ∀ (id : ℕ) (call : Call), next.calls[id]? = some call →
      call.Sound cluster)
    (halone : ∀ (id other : ℕ) (call rival : Call),
      next.calls[id]? = some call → next.calls[other]? = some rival →
      call.phase.active = true → rival.phase.active = true →
      call.shardID = rival.shardID → id = other) : Sound next where
  calls id call hcall := (hcalls id call hcall).mono
    (by rw [hmembership]; exact UInt64.le_refl _) (by rw [hsm])
  alone := halone
  stored := by
    rw [hsm, hmembership]
    exact hsound.stored
  forwards := by
    unfold NeverBackwards
    rw [hreplaced]
    exact hsound.forwards

theorem Sound.setCall (hsound : Sound cluster) {id : ℕ} {call : Call}
    (hcall : call.Sound cluster)
    (halone : call.phase.active = true → ∀ (other : ℕ) (rival : Call), other ≠ id →
      cluster.calls[other]? = some rival → rival.phase.active = true →
      rival.shardID ≠ call.shardID) :
    Sound (cluster.setCall id call) := by
  have hcases : ∀ (other : ℕ) (rival : Call),
      (cluster.setCall id call).calls[other]? = some rival →
      (other = id ∧ rival = call) ∨ (other ≠ id ∧ cluster.calls[other]? = some rival) := by
    intro other rival hrival
    by_cases hid : id = other
    · subst hid
      rw [Cluster.setCall, Std.ExtTreeMap.getElem?_insert_self] at hrival
      exact .inl ⟨rfl, (Option.some.inj hrival).symm⟩
    · rw [Cluster.setCall, getElem?_insert_ne hid] at hrival
      exact .inr ⟨Ne.symm hid, hrival⟩
  refine hsound.of_calls rfl rfl rfl ?_ ?_
  · intro other rival hrival
    rcases hcases other rival hrival with ⟨-, rfl⟩ | ⟨-, hold⟩
    · exact hcall
    · exact hsound.calls other rival hold
  · intro first second left right hleft hright hleftActive hrightActive hshard
    rcases hcases first left hleft with ⟨rfl, rfl⟩ | ⟨hfirst, hleftOld⟩
    · rcases hcases second right hright with ⟨rfl, -⟩ | ⟨hsecond, hrightOld⟩
      · rfl
      · exact absurd hshard.symm
          (halone hleftActive second right hsecond hrightOld hrightActive)
    · rcases hcases second right hright with ⟨rfl, rfl⟩ | ⟨-, hrightOld⟩
      · exact absurd hshard
          (halone hrightActive first left hfirst hleftOld hleftActive)
      · exact hsound.alone first second left right hleftOld hrightOld hleftActive
          hrightActive hshard

/-- A call that is active already stays the only one for its shard. -/
theorem Sound.advance (hsound : Sound cluster) {id : ℕ} {before after : Call}
    (hbefore : cluster.calls[id]? = some before)
    (hactive : before.phase.active = true) (hshard : after.shardID = before.shardID)
    (hafter : after.Sound cluster) : Sound (cluster.setCall id after) := by
  refine hsound.setCall hafter ?_
  intro _ other rival hother hrival hrivalActive heq
  exact hother (hsound.alone other id rival before hrival hbefore hrivalActive hactive
    (heq.trans hshard))

theorem getElem?_endCall {id other : ℕ} {rival : Call}
    (hrival : (cluster.endCall id).calls[other]? = some rival) :
    other ≠ id ∧ cluster.calls[other]? = some rival := by
  by_cases hid : id = other
  · subst hid
    rw [Cluster.endCall, Std.ExtTreeMap.getElem?_erase_self] at hrival
    cases hrival
  · rw [Cluster.endCall, getElem?_erase_ne hid] at hrival
    exact ⟨Ne.symm hid, hrival⟩

theorem Sound.endCall (hsound : Sound cluster) (id : ℕ) :
    Sound (cluster.endCall id) :=
  hsound.of_calls rfl rfl rfl
    (fun other rival hrival => hsound.calls other rival (getElem?_endCall hrival).2)
    (fun first second left right hleft hright =>
      hsound.alone first second left right (getElem?_endCall hleft).2
        (getElem?_endCall hright).2)

theorem Sound.reconfigure (hsound : Sound cluster) {shardID : UInt64}
    {membership : Membership}
    (hgrows : (cluster.membership shardID).configChangeID ≤ membership.configChangeID) :
    Sound { cluster with
      membership := Function.update cluster.membership shardID membership } := by
  have hall : ∀ other, (cluster.membership other).configChangeID ≤
      (Function.update cluster.membership shardID membership other).configChangeID := by
    intro other
    by_cases hother : other = shardID
    · subst hother
      rwa [Function.update_self]
    · rw [Function.update_of_ne hother]
      exact UInt64.le_refl _
  refine ⟨?_, hsound.alone, ?_, hsound.forwards⟩
  · exact fun id call hcall => (hsound.calls id call hcall).mono (hall _) rfl
  · exact fun other topo htopo => UInt64.le_trans (hsound.stored other topo htopo)
      (hall other)

/-- A record that was just read is fresh. -/
theorem Sound.fresh (hsound : Sound cluster) (shardID : UInt64) :
    Fresh cluster shardID (cluster.membership shardID).configChangeID :=
  ⟨UInt64.le_refl _, fun stored hstored => hsound.stored shardID stored hstored⟩

theorem lt_succ_of_le {stored counter : UInt64} (hle : stored ≤ counter)
    (hroom : counter.toNat + 1 < 2 ^ 64) : stored < counter + 1 := by
  rw [UInt64.le_iff_toNat_le] at hle
  rw [UInt64.lt_iff_toNat_lt, UInt64.toNat_add, UInt64.toNat_one,
    Nat.mod_eq_of_lt hroom]
  omega

/-- The fields that precede every variable part of a command are decoded as they
were encoded, whatever the lengths of the rest. -/
theorem header_of_decode {fields : Fields} {topo : ShardTopology}
    (hdecode : unmarshalUpdateTopologyCmd fields.encode = .ok topo) :
    topo.shardID = fields.shardID ∧ topo.epoch = fields.epoch ∧
      topo.configChangeID = fields.configChangeID := by
  obtain ⟨other, -, rfl, rest, hdata⟩ :=
    unmarshalUpdateTopologyCmd_eq_ok_iff.mp hdecode
  simp only [Fields.encode, List.append_assoc] at hdata
  obtain ⟨-, hdata⟩ := List.append_inj hdata rfl
  obtain ⟨hshard, hdata⟩ := List.append_inj hdata (by simp)
  obtain ⟨-, hdata⟩ := List.append_inj hdata (by simp)
  obtain ⟨-, hdata⟩ := List.append_inj hdata (by simp)
  obtain ⟨hepoch, hdata⟩ := List.append_inj hdata (by simp)
  obtain ⟨hconfig, -⟩ := List.append_inj hdata (by simp)
  exact ⟨(putUint64_injective hshard).symm, (putUint64_injective hepoch).symm,
    (putUint64_injective hconfig).symm⟩

theorem mem_replacement {s : MetadataStateMachine} {cmd : Bytes}
    {pair : ShardTopology × ShardTopology}
    (hpair : pair ∈ (replacement s cmd).toList) :
    unmarshalUpdateTopologyCmd cmd = .ok pair.2 ∧
      s.topology.shards[pair.2.shardID]? = some pair.1 := by
  rw [Option.mem_toList, replacement] at hpair
  split at hpair
  · rename_i topo hdecode
    obtain ⟨old, hold, rfl⟩ := Option.map_eq_some_iff.mp hpair
    exact ⟨hdecode, hold⟩
  · cases hpair

/-- Applying a record that is ready keeps everything sound: the calls for its
shard have not read a membership yet. -/
theorem Sound.apply (hsound : Sound cluster) {id service : ℕ} {shardID : UInt64}
    {cmd : Bytes} {sm : MetadataStateMachine}
    (hcall : cluster.calls[id]? = some ⟨service, shardID, .proposed cmd⟩)
    (heffect : Metadata.Effect cluster.sm cmd sm) :
    Sound { cluster.endCall id with
      sm
      replaced := (replacement cluster.sm cmd).toList ++ cluster.replaced } := by
  have hready : ∀ topo, unmarshalUpdateTopologyCmd cmd = .ok topo →
      Ready cluster shardID topo := hsound.calls id _ hcall
  have hsame : ∀ other, other ≠ shardID →
      sm.topology.shards[other]? = cluster.sm.topology.shards[other]? := by
    intro other hother
    cases heffect with
    | refused => rfl
    | addr _ => rfl
    | shard hdecode =>
        apply getElem?_insert_ne
        rw [(hready _ hdecode).shard]
        exact hother.symm
  have hstored : ∀ topo, sm.topology.shards[shardID]? = some topo →
      topo.configChangeID ≤ (cluster.membership shardID).configChangeID := by
    intro topo htopo
    cases heffect with
    | refused => exact hsound.stored shardID topo htopo
    | addr _ => exact hsound.stored shardID topo htopo
    | @shard new hdecode =>
        have hnew := hready new hdecode
        rw [MetadataStateMachine.putShard, hnew.shard,
          Std.ExtTreeMap.getElem?_insert_self] at htopo
        cases htopo
        exact hnew.fresh.1
  refine ⟨?_, ?_, ?_, ?_⟩
  · intro other rival hrival
    obtain ⟨hother, hold⟩ := getElem?_endCall hrival
    by_cases hshard : rival.shardID = shardID
    · have hidle : rival.phase.active ≠ true := fun hactive =>
        hother (hsound.alone other id rival _ hold hcall hactive rfl hshard)
      obtain ⟨_, _, phase⟩ := rival
      cases phase with
      | started => trivial
      | _ => exact absurd rfl hidle
    · exact (hsound.calls other rival hold).mono (UInt64.le_refl _) (hsame _ hshard)
  · exact fun first second left right hleft hright =>
      hsound.alone first second left right (getElem?_endCall hleft).2
        (getElem?_endCall hright).2
  · intro other topo htopo
    by_cases hshard : other = shardID
    · subst hshard
      exact hstored topo htopo
    · exact hsound.stored other topo ((hsame other hshard).symm.trans htopo)
  · intro pair hpair
    rcases List.mem_append.mp hpair with hnew | hold
    · obtain ⟨hdecode, holdRecord⟩ := mem_replacement hnew
      have hpairReady := hready pair.2 hdecode
      rw [hpairReady.shard] at holdRecord
      exact ⟨hpairReady.fresh.2 pair.1 holdRecord, hpairReady.newer pair.1 holdRecord⟩
    · exact hsound.forwards pair hold

theorem Sound.step (hsound : Sound cluster) {action : Action} {next : Cluster}
    (hguard : Serialised cluster action)
    (hstep : TopologyService.step cluster action = some next) : Sound next := by
  cases effect_of_step hstep with
  | reconfigure hgrows => exact hsound.reconfigure hgrows
  | begin hnew => exact hsound.setCall trivial fun hactive => by cases hactive
  | @readMembership id service shardID hcall =>
      refine hsound.setCall (hsound.fresh shardID) ?_
      intro _ other rival hother hrival hactive hshard
      have hidle := hguard _ hcall (other, rival)
        (Std.ExtTreeMap.mem_toList_iff_getElem?_eq_some.mpr hrival) hother hshard
      rw [hidle] at hactive
      cases hactive
  | @readLeader id service shardID membership answer grpcAddrs leaderID term hanswer hcall =>
      have hfresh : Fresh cluster shardID membership.configChangeID :=
        hsound.calls _ _ hcall
      exact hsound.advance hcall rfl rfl hfresh
  | @takeEpoch id service shardID leaderID term membership grpcAddrs hcall =>
      obtain ⟨hroom, hbehind⟩ := hguard _ hcall
      have hcounted : Sound { cluster with
          epochs := Function.update cluster.epochs service
            (cluster.epochs service + 1) } :=
        hsound.of_calls rfl rfl rfl hsound.calls hsound.alone
      refine hcounted.advance hcall rfl rfl ⟨rfl, hsound.calls _ _ hcall, ?_⟩
      exact fun stored hstored => lt_succ_of_le (hbehind stored hstored) hroom
  | @propose id service shardID topo order hcall =>
      refine hsound.advance hcall rfl rfl ?_
      intro decoded hdecode
      have hready : Ready cluster shardID topo := hsound.calls _ _ hcall
      obtain ⟨hshard, hepoch, hconfig⟩ := header_of_decode hdecode
      refine ⟨hshard.trans hready.shard, ?_, ?_⟩
      · rw [hconfig]
        exact hready.fresh
      · rw [hepoch]
        exact hready.newer
  | apply hcall heffect => exact hsound.apply hcall heffect
  | finish => exact hsound.endCall _
  | registerNodeAddr hshards =>
      refine ⟨?_, hsound.alone, ?_, hsound.forwards⟩
      · exact fun id call hcall => (hsound.calls id call hcall).mono
          (UInt64.le_refl _) (by rw [hshards])
      · intro shardID topo htopo
        rw [hshards] at htopo
        exact hsound.stored shardID topo htopo

end Steps

theorem sound_newCluster : Sound newCluster := by
  refine ⟨?_, ?_, ?_, ?_⟩
  · intro id call hcall
    simp [newCluster] at hcall
  · intro id other call rival hcall
    simp [newCluster] at hcall
  · intro shardID topo htopo
    simp [newCluster, newMetadataStateMachine] at htopo
  · intro pair hpair
    simp [newCluster] at hpair

/-- In every run whose calls for one shard do not overlap between reading the
membership and the end of the proposal, and in which an epoch is only taken from
a counter that has caught up with the stored record, no record is ever replaced
by an older one. -/
theorem topology_never_backwards {actions : List Action} {finish : Cluster}
    (hmeets : Meets step Serialised newCluster actions)
    (hrun : run step newCluster actions = some finish) : NeverBackwards finish := by
  have hsound : Sound finish :=
    run_invariant (fun _ _ _ hsound hguard hstep => hsound.step hguard hstep)
      sound_newCluster hmeets hrun
  exact hsound.forwards

/-- What a call does after it has read the membership. -/
def rest (id : ℕ) : List Action :=
  [.readLeader id none ∅, .takeEpoch id, .propose id .sorted, .apply id]

/-- A call that nothing interrupts. -/
def publishTopology (id service : ℕ) (shardID : UInt64) : List Action :=
  [.begin id service shardID, .readMembership id true] ++ rest id

theorem topology_never_backwards_twoCalls :
    ∃ finish, run step newCluster (publishTopology 0 0 7 ++
        [.reconfigure 7 ⟨4, ∅, ∅, ∅⟩] ++ publishTopology 1 0 7) = some finish ∧
      finish.replaced.length = 1 ∧ NeverBackwards finish := by
  have hmeets : Meets step Serialised newCluster (publishTopology 0 0 7 ++
      [.reconfigure 7 ⟨4, ∅, ∅, ∅⟩] ++ publishTopology 1 0 7) := by
    decide +kernel
  have hfinish : ∃ finish, run step newCluster (publishTopology 0 0 7 ++
        [.reconfigure 7 ⟨4, ∅, ∅, ∅⟩] ++ publishTopology 1 0 7) = some finish ∧
      finish.replaced.length = 1 := exists_finish_of_any (by decide +kernel)
  obtain ⟨finish, hrun, hreplaced⟩ := hfinish
  exact ⟨finish, hrun, hreplaced, topology_never_backwards hmeets hrun⟩

/-- Call 0 reads the membership, the shard is reconfigured, call 1 of the same
service publishes the new membership, and call 0 then overwrites it with the old
one under a larger epoch.  Call 2, of a service that has not published before,
overwrites that record under a smaller epoch. -/
theorem stale_topology_wins :
    ∃ finish, run step newCluster
        ([.begin 0 0 7, .readMembership 0 true, .reconfigure 7 ⟨4, ∅, ∅, ∅⟩] ++
          publishTopology 1 0 7 ++ rest 0 ++ publishTopology 2 1 7) = some finish ∧
      finish.replaced.map (fun pair =>
          ((pair.1.configChangeID, pair.1.epoch),
            (pair.2.configChangeID, pair.2.epoch))) =
        [((0, 2), (4, 1)), ((4, 1), (0, 2))] ∧
      ¬ NeverBackwards finish :=
  exists_finish_of_any (by decide +kernel)

end FutureQ.TopologyService
