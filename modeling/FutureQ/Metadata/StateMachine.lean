import FutureQ.Metadata.Codec

/-!
# The metadata state machine

The state lives in memory: the topology, one record per shard under a global
epoch, and the registry of client-facing addresses.  A topology command
replaces the record of its shard whatever was there, and the global epoch is
the largest epoch that any applied command carried, replaced records included.
-/

namespace FutureQ.Metadata

open FutureQ.ByteOrder
open FutureQ.GoRuntime
open FutureQ.OrderedStore

structure TopologySnapshot where
  shards : Contents UInt64 ShardTopology
  epoch : UInt64
  deriving DecidableEq

structure MetadataStateMachine where
  topology : TopologySnapshot
  grpcAddrs : NodeMap
  deriving DecidableEq

def newMetadataStateMachine : MetadataStateMachine := ⟨⟨∅, 0⟩, ∅⟩

def raiseEpoch (epoch : UInt64) (topo : ShardTopology) : UInt64 :=
  if epoch < topo.epoch then topo.epoch else epoch

/-- `s.topology.Shards[topo.ShardID] = topo`, and the global epoch follows. -/
def MetadataStateMachine.putShard (s : MetadataStateMachine)
    (topo : ShardTopology) : MetadataStateMachine :=
  { s with
    topology :=
      { shards := s.topology.shards.insert topo.shardID topo
        epoch := raiseEpoch s.topology.epoch topo } }

def MetadataStateMachine.putAddr (s : MetadataStateMachine) (nodeID : UInt64)
    (grpcAddr : Bytes) : MetadataStateMachine :=
  { s with grpcAddrs := s.grpcAddrs.insert nodeID grpcAddr }

/-- `Update`: the state after the entry and the value of its result.  A command
that cannot be decoded is logged and answered with 0; only a panic escapes. -/
def update (s : MetadataStateMachine) (cmd : Bytes) :
    Except Panic (MetadataStateMachine × UInt64) :=
  match cmd with
  | [] => .ok (s, 0)
  | tag :: _ =>
      match commandType tag with
      | .updateTopology =>
          match unmarshalUpdateTopologyCmd cmd with
          | .error (.panic reason) => .error reason
          | .error (.error _) => .ok (s, 0)
          | .ok topo => .ok (s.putShard topo, 1)
      | .registerNodeAddr =>
          match unmarshalRegisterNodeAddrCmd cmd with
          | .error (.panic reason) => .error reason
          | .error (.error _) => .ok (s, 0)
          | .ok (nodeID, grpcAddr) => .ok (s.putAddr nodeID grpcAddr, 1)
      | .unknown _ => .ok (s, 0)

/-- The state after a sequence of entries. -/
def play (s : MetadataStateMachine) (cmds : List Bytes) :
    Except Panic MetadataStateMachine :=
  cmds.foldlM (fun s cmd => (update s cmd).map Prod.fst) s

/-! ## Queries -/

/-- The argument of `Lookup`, by its dynamic type. -/
inductive Query where
  | nil
  | text (q : String)
  | shard (id : UInt64)
  | other
  deriving DecidableEq, Repr

inductive Answer where
  | nil
  | topology (topology : TopologySnapshot)
  | shard (topo : ShardTopology)
  deriving DecidableEq

/-- Copies are taken so that callers cannot change the state; as values they
are the state. -/
def getTopology (s : MetadataStateMachine) : TopologySnapshot := s.topology

def getShardTopology (s : MetadataStateMachine) (shardID : UInt64) :
    Option ShardTopology := s.topology.shards[shardID]?

def getGrpcAddrs (s : MetadataStateMachine) : NodeMap := s.grpcAddrs

def lookup (s : MetadataStateMachine) : Query → Answer
  | .nil => .topology (getTopology s)
  | .text q => if q = "topology" then .topology (getTopology s) else .nil
  | .shard id =>
      match getShardTopology s id with
      | some topo => .shard topo
      | none => .nil
  | .other => .nil

/-! ## What an entry can do -/

inductive Effect (s : MetadataStateMachine) (cmd : Bytes) :
    MetadataStateMachine → Prop
  | refused : Effect s cmd s
  | shard {topo : ShardTopology} (hdecode : unmarshalUpdateTopologyCmd cmd = .ok topo) :
      Effect s cmd (s.putShard topo)
  | addr {nodeID : UInt64} {grpcAddr : Bytes}
      (hdecode : unmarshalRegisterNodeAddrCmd cmd = .ok (nodeID, grpcAddr)) :
      Effect s cmd (s.putAddr nodeID grpcAddr)

/-- Every entry is applied, in one of three ways. -/
theorem exists_update (s : MetadataStateMachine) (cmd : Bytes) :
    ∃ next value, update s cmd = .ok (next, value) ∧ Effect s cmd next := by
  cases cmd with
  | nil => exact ⟨s, 0, rfl, .refused⟩
  | cons tag rest =>
      rw [update]
      cases htag : commandType tag with
      | updateTopology =>
          simp only
          cases hdecode : unmarshalUpdateTopologyCmd (tag :: rest) with
          | ok topo => exact ⟨_, 1, rfl, .shard hdecode⟩
          | error fault =>
              cases fault with
              | error err => exact ⟨s, 0, rfl, .refused⟩
              | panic reason =>
                  exact absurd hdecode
                    (returns_unmarshalUpdateTopologyCmd _ reason)
      | registerNodeAddr =>
          simp only
          cases hdecode : unmarshalRegisterNodeAddrCmd (tag :: rest) with
          | ok value => exact ⟨_, 1, rfl, .addr hdecode⟩
          | error fault =>
              cases fault with
              | error err => exact ⟨s, 0, rfl, .refused⟩
              | panic reason =>
                  exact absurd hdecode
                    (returns_unmarshalRegisterNodeAddrCmd _ reason)
      | unknown tag => exact ⟨s, 0, rfl, .refused⟩

theorem play_cons (s : MetadataStateMachine) (cmd : Bytes) (cmds : List Bytes) :
    ∃ next, play s (cmd :: cmds) = play next cmds ∧ Effect s cmd next := by
  obtain ⟨next, value, hupdate, heffect⟩ := exists_update s cmd
  refine ⟨next, ?_, heffect⟩
  rw [play, List.foldlM_cons, hupdate]
  rfl

/-- A replica never stops at an entry. -/
theorem exists_play (s : MetadataStateMachine) (cmds : List Bytes) :
    ∃ finish, play s cmds = .ok finish := by
  induction cmds generalizing s with
  | nil => exact ⟨s, rfl⟩
  | cons cmd cmds ih =>
      obtain ⟨next, hnext, -⟩ := play_cons s cmd cmds
      obtain ⟨finish, hfinish⟩ := ih next
      exact ⟨finish, hnext.trans hfinish⟩

theorem play_invariant {Inv : MetadataStateMachine → Prop}
    (hstep : ∀ s cmd next, Inv s → Effect s cmd next → Inv next)
    {s finish : MetadataStateMachine} {cmds : List Bytes} (hstart : Inv s)
    (hplay : play s cmds = .ok finish) : Inv finish := by
  induction cmds generalizing s with
  | nil =>
      cases hplay
      exact hstart
  | cons cmd cmds ih =>
      obtain ⟨next, hnext, heffect⟩ := play_cons s cmd cmds
      exact ih (hstep s cmd next hstart heffect) (hnext ▸ hplay)

/-! ## What every replica knows about its records -/

/-- Records stand under their own shard ID, their lengths fit the wire format,
and none carries an epoch above the global one. -/
structure WellFormed (s : MetadataStateMachine) : Prop where
  filed : ∀ (id : UInt64) (topo : ShardTopology),
    s.topology.shards[id]? = some topo → topo.shardID = id
  fits : ∀ (id : UInt64) (topo : ShardTopology),
    s.topology.shards[id]? = some topo → FitsTopology topo
  epochs : ∀ (id : UInt64) (topo : ShardTopology),
    s.topology.shards[id]? = some topo → topo.epoch ≤ s.topology.epoch
  addrs : ∀ (id : UInt64) (addr : Bytes),
    s.grpcAddrs[id]? = some addr → ShortAddr addr

theorem le_raiseEpoch (epoch : UInt64) (topo : ShardTopology) :
    epoch ≤ raiseEpoch epoch topo ∧ topo.epoch ≤ raiseEpoch epoch topo := by
  unfold raiseEpoch
  simp only [UInt64.le_iff_toNat_le, UInt64.lt_iff_toNat_lt]
  split <;> omega

theorem wellFormed_new : WellFormed newMetadataStateMachine := by
  constructor <;> intro id value hvalue <;>
    simp [newMetadataStateMachine] at hvalue

theorem WellFormed.putShard {s : MetadataStateMachine} (hformed : WellFormed s)
    {topo : ShardTopology} (hfits : FitsTopology topo) :
    WellFormed (s.putShard topo) := by
  obtain ⟨hraise, hown⟩ := le_raiseEpoch s.topology.epoch topo
  have hcases : ∀ (id : UInt64) (stored : ShardTopology),
      (s.putShard topo).topology.shards[id]? = some stored →
      (id = topo.shardID ∧ stored = topo) ∨
        s.topology.shards[id]? = some stored := by
    intro id stored hstored
    by_cases hid : topo.shardID = id
    · subst hid
      rw [MetadataStateMachine.putShard, Std.ExtTreeMap.getElem?_insert_self] at hstored
      exact .inl ⟨rfl, (Option.some.inj hstored).symm⟩
    · rw [MetadataStateMachine.putShard, getElem?_insert_ne hid] at hstored
      exact .inr hstored
  refine ⟨?_, ?_, ?_, hformed.addrs⟩
  · intro id stored hstored
    rcases hcases id stored hstored with ⟨rfl, rfl⟩ | hold
    · rfl
    · exact hformed.filed id stored hold
  · intro id stored hstored
    rcases hcases id stored hstored with ⟨-, rfl⟩ | hold
    · exact hfits
    · exact hformed.fits id stored hold
  · intro id stored hstored
    rcases hcases id stored hstored with ⟨-, rfl⟩ | hold
    · exact hown
    · exact UInt64.le_trans (hformed.epochs id stored hold) hraise

theorem WellFormed.putAddr {s : MetadataStateMachine} (hformed : WellFormed s)
    {nodeID : UInt64} {grpcAddr : Bytes} (hshort : ShortAddr grpcAddr) :
    WellFormed (s.putAddr nodeID grpcAddr) := by
  refine ⟨hformed.filed, hformed.fits, hformed.epochs, ?_⟩
  intro id addr haddr
  by_cases hid : nodeID = id
  · subst hid
    rw [MetadataStateMachine.putAddr, Std.ExtTreeMap.getElem?_insert_self] at haddr
    exact Option.some.inj haddr ▸ hshort
  · rw [MetadataStateMachine.putAddr, getElem?_insert_ne hid] at haddr
    exact hformed.addrs id addr haddr

theorem WellFormed.step {s next : MetadataStateMachine} {cmd : Bytes}
    (hformed : WellFormed s) (heffect : Effect s cmd next) : WellFormed next := by
  cases heffect with
  | refused => exact hformed
  | shard hdecode =>
      obtain ⟨fields, hfits, rfl, -⟩ :=
        unmarshalUpdateTopologyCmd_eq_ok_iff.mp hdecode
      exact hformed.putShard hfits.topology
  | addr hdecode =>
      obtain ⟨hshort, -⟩ := unmarshalRegisterNodeAddrCmd_eq_ok_iff.mp hdecode
      exact hformed.putAddr hshort

/-- Every state that a replica can reach is well formed. -/
theorem wellFormed_of_play {cmds : List Bytes} {s : MetadataStateMachine}
    (hplay : play newMetadataStateMachine cmds = .ok s) : WellFormed s :=
  play_invariant (fun _ _ _ hformed heffect => hformed.step heffect)
    wellFormed_new hplay

end FutureQ.Metadata
