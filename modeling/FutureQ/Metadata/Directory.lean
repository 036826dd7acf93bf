import FutureQ.Metadata.Recovery
import FutureQ.Metadata.Service

/-!
# What clients are told about the cluster

Any node answers `GetClusterInfo` from its own replica of the metadata group, which may be
behind the log, may have been restarted and may come from a snapshot.  The records it
answers from were published by the services of all nodes, each of which copied the address
registry of its own replica.  A `System` puts the replicas and the log of the metadata
group around the services.

`cluster_info_has_origin` says that nothing is made up on the way: the nodes of an answer
are the voters that Dragonboat listed for the shard at one time, every address was
registered by its node or is the Raft address of that list, and the leader was named by
Dragonboat at one time or is 0, for none.  `replicas_answer_alike` says that replicas with
the same number of applied entries answer alike.
-/

namespace FutureQ.Directory

open FutureQ.ByteOrder
open FutureQ.GoRuntime
open FutureQ.OrderedStore
open FutureQ.Transition
open FutureQ.Metadata
open FutureQ.TopologyService

/-! ## The handler -/

structure NodeInfo where
  nodeID : UInt64
  address : Bytes
  isLeader : Bool
  isAlive : Bool
  deriving DecidableEq

structure ClusterInfoResponse where
  leaderNodeID : UInt64
  leaderAddress : Bytes
  nodes : List NodeInfo
  deriving DecidableEq

inductive ClusterInfoError where
  | singleMode
  | topologyMissing
  deriving DecidableEq

def ClusterInfoError.message : ClusterInfoError → String
  | .singleMode => "attempt to get cluster info on single mode node"
  | .topologyMissing => "topology not yet available"

/-- The client-facing address, or the Raft address of a node that has not registered. -/
def nodeAddress (topo : ShardTopology) (nodeID : UInt64) : Bytes :=
  let addr := (topo.grpcAddrs[nodeID]?).getD []
  if addr = [] then (topo.nodes[nodeID]?).getD [] else addr

/-- `GetClusterInfo`; a standalone node has no state machine. -/
def getClusterInfo (order : EntryOrder Bytes) (metadataSM : Option MetadataStateMachine)
    (shardID : UInt64) : Except ClusterInfoError ClusterInfoResponse :=
  match metadataSM with
  | none => .error .singleMode
  | some sm =>
      match getShardTopology sm shardID with
      | none => .error .topologyMissing
      | some topo => .ok {
          leaderNodeID := topo.leaderID
          leaderAddress := topo.leaderAddr
          nodes := (order.entries topo.nodes).map fun entry =>
            ⟨entry.1, nodeAddress topo entry.1, entry.1 == topo.leaderID, true⟩ }

/-! ## The metadata group -/

/-- The replica of a node; `sourced` is set by `SetGrpcAddrsSource`. -/
structure Replica where
  sm : MetadataStateMachine
  applied : ℕ
  sourced : Bool

def newReplica : Replica := ⟨newMetadataStateMachine, 0, false⟩

/-- What `publishTopology` copies from the registry. -/
def Replica.addresses (replica : Replica) : NodeMap :=
  if replica.sourced then getGrpcAddrs replica.sm else ∅

/-- The memberships that Dragonboat has had for a shard, the leaders that `GetLeaderID` has
named for it, and the addresses that nodes have registered. -/
structure History where
  seen : UInt64 → List Membership
  leaders : UInt64 → List UInt64
  registered : List (UInt64 × Bytes)

/-- `snapshots` are the saved ones with their positions in the log. -/
structure System where
  cluster : Cluster
  log : List Bytes
  replicas : ℕ → Replica
  snapshots : List (Bytes × ℕ)
  history : History

def newSystem : System where
  cluster := newCluster
  log := []
  replicas _ := newReplica
  snapshots := []
  history := ⟨fun shardID => [newCluster.membership shardID], fun _ => [], []⟩

inductive Action where
  | service (action : TopologyService.Action)
  | source (node : ℕ)
  | deliver (node : ℕ)
  | save (node : ℕ) (order : SaveOrder)
  | install (node position : ℕ)
  | restart (node : ℕ)

/-- A call copies the registry of its own node. -/
def System.reads (system : System) : TopologyService.Action → Bool
  | .readLeader id _ grpcAddrs =>
      (system.cluster.calls[id]?).all fun call =>
        grpcAddrs = (system.replicas call.service).addresses
  | _ => true

/-- The command that an action appends to the log. -/
def committed (cluster : Cluster) : TopologyService.Action → Option Bytes
  | .apply id =>
      match cluster.calls[id]? with
      | some ⟨_, _, .proposed cmd⟩ => some cmd
      | _ => none
  | .registerNodeAddr nodeID grpcAddr =>
      (marshalRegisterNodeAddrCmd nodeID grpcAddr).toOption
  | _ => none

/-- The next entry of the history. -/
def History.after (history : History) (cluster : Cluster) : TopologyService.Action → History
  | .reconfigure shardID membership => { history with
      seen := Function.update history.seen shardID (membership :: history.seen shardID) }
  | .readLeader id (some (leaderID, _)) _ =>
      match cluster.calls[id]? with
      | none => history
      | some ⟨_, shardID, _⟩ => { history with
          leaders := Function.update history.leaders shardID
            (leaderID :: history.leaders shardID) }
  | .registerNodeAddr nodeID grpcAddr => { history with
      registered := (nodeID, grpcAddr) :: history.registered }
  | _ => history

/-- A restarted process has lost its calls; a proposal may still be applied. -/
def survives (node : ℕ) (call : TopologyService.Call) : Bool :=
  if call.service = node then
    match call.phase with
    | .proposed _ => true
    | _ => false
  else true

def System.setReplica (system : System) (node : ℕ) (replica : Replica) : System :=
  { system with replicas := Function.update system.replicas node replica }

def step (system : System) : Action → Option System
  | .service action =>
      if system.reads action then
        (TopologyService.step system.cluster action).map fun cluster =>
          { system with
            cluster
            log := system.log ++ (committed system.cluster action).toList
            history := system.history.after system.cluster action }
      else none
  | .source node =>
      some (system.setReplica node { system.replicas node with sourced := true })
  | .deliver node =>
      match system.log[(system.replicas node).applied]? with
      | none => none
      | some cmd =>
          match update (system.replicas node).sm cmd with
          | .error _ => none
          | .ok (sm, _) =>
              some (system.setReplica node { system.replicas node with
                sm, applied := (system.replicas node).applied + 1 })
  | .save node order =>
      match saveSnapshot (fun _ => false) order (system.replicas node).sm with
      | .error _ => none
      | .ok bytes =>
          some { system with
            snapshots := system.snapshots ++ [(bytes, (system.replicas node).applied)] }
  | .install node position =>
      match system.snapshots[position]? with
      | none => none
      | some (bytes, applied) =>
          match recoverFromSnapshot (system.replicas node).sm ⟨bytes, false⟩ with
          | (sm, .ok ()) =>
              some (system.setReplica node { system.replicas node with sm, applied })
          | (_, .error _) => none
  | .restart node =>
      let cluster := { system.cluster with
        epochs := Function.update system.cluster.epochs node 0
        calls := system.cluster.calls.filter fun _ call => survives node call }
      some ({ system with cluster }.setReplica node newReplica)

/-- A record that is about to be proposed fits the wire format. -/
def Proposable : Phase → Prop
  | .numbered topo => FitsTopology topo
  | _ => True

/-- The snapshot's counts fit their four bytes. -/
def Countable (sm : MetadataStateMachine) : Prop :=
  sm.grpcAddrs.size < 2 ^ 32 ∧ sm.topology.shards.size < 2 ^ 32

/-- Fewer than `2 ^ 32` addresses and records are saved. -/
def Counted (system : System) : Action → Prop
  | .save node _ => Countable (system.replicas node).sm
  | _ => True

/-- Moreover, addresses and records fit the wire format. -/
def Wired (system : System) : Action → Prop
  | .service (.registerNodeAddr _ grpcAddr) => ShortAddr grpcAddr
  | .service (.propose id _) => ∀ call ∈ system.cluster.calls[id]?, Proposable call.phase
  | action => Counted system action

theorem Wired.counted {system : System} {action : Action} (hwired : Wired system action) :
    Counted system action := by
  cases action with
  | service => trivial
  | source | deliver | save | install | restart => exact hwired

theorem fitsMap_iff {m : NodeMap} :
    (m.size < 2 ^ 16 ∧ ∀ entry ∈ m.toList, entry.2.length < 2 ^ 16) ↔ FitsMap m := by
  constructor
  · rintro ⟨hcount, hshort⟩
    exact ⟨hcount, fun id addr haddr => hshort (id, addr)
      (Std.ExtTreeMap.mem_toList_iff_getElem?_eq_some.mpr haddr)⟩
  · rintro ⟨hcount, hshort⟩
    exact ⟨hcount, fun entry hentry => hshort entry.1 entry.2
      (Std.ExtTreeMap.mem_toList_iff_getElem?_eq_some.mp hentry)⟩

theorem fitsTopology_iff {topo : ShardTopology} :
    (topo.leaderAddr.length < 2 ^ 16 ∧ FitsMap topo.nodes ∧ FitsMap topo.nonVotings ∧
      FitsMap topo.witnesses ∧ FitsMap topo.grpcAddrs) ↔ FitsTopology topo :=
  ⟨fun ⟨hleader, hnodes, hnonVotings, hwitnesses, haddrs⟩ =>
    ⟨hleader, hnodes, hnonVotings, hwitnesses, haddrs⟩,
    fun hfits => ⟨hfits.leaderAddr, hfits.nodes, hfits.nonVotings, hfits.witnesses,
      hfits.grpcAddrs⟩⟩

instance instDecidableFitsMap (m : NodeMap) : Decidable (FitsMap m) :=
  decidable_of_iff _ fitsMap_iff

instance instDecidableFitsTopology (topo : ShardTopology) : Decidable (FitsTopology topo) :=
  decidable_of_iff _ fitsTopology_iff

instance instDecidableProposable : (phase : Phase) → Decidable (Proposable phase)
  | .numbered topo => inferInstanceAs (Decidable (FitsTopology topo))
  | .started | .membership _ | .leader _ _ _ _ | .proposed _ => isTrue trivial

instance instDecidableCounted (system : System) :
    (action : Action) → Decidable (Counted system action)
  | .save _ _ => inferInstanceAs (Decidable (_ ∧ _))
  | .service _ | .source _ | .deliver _ | .install _ _ | .restart _ => isTrue trivial

instance instDecidableWired (system : System) :
    (action : Action) → Decidable (Wired system action)
  | .service (.registerNodeAddr _ grpcAddr) =>
      inferInstanceAs (Decidable (grpcAddr.length < 2 ^ 16))
  | .service (.propose id _) =>
      inferInstanceAs (Decidable (∀ call ∈ system.cluster.calls[id]?, _))
  | .save node order => inferInstanceAs (Decidable (Counted system (.save node order)))
  | .service (.reconfigure _ _) | .service (.begin _ _ _)
  | .service (.readMembership _ _) | .service (.readLeader _ _ _)
  | .service (.takeEpoch _) | .service (.apply _) | .service (.lose _) | .source _
  | .deliver _ | .install _ _ | .restart _ => isTrue trivial

/-! ## Where records come from -/

section Origin

variable (history : History)

/-- Every address was registered by its node. -/
def Vouched (addrs : NodeMap) : Prop :=
  ∀ (nodeID : UInt64) (addr : Bytes), addrs[nodeID]? = some addr →
    (nodeID, addr) ∈ history.registered

/-- `GetLeaderID` named the node for the shard, or gave no valid answer. -/
def Named (shardID leaderID : UInt64) : Prop :=
  leaderID = 0 ∨ leaderID ∈ history.leaders shardID

/-- The record was drawn up from a membership of its shard, from an answer about its leader
and from addresses that were registered. -/
structure Drawn (topo : ShardTopology) : Prop where
  origin : ∃ membership ∈ history.seen topo.shardID, topo.nodes = membership.nodes
  named : Named history topo.shardID topo.leaderID
  leader : topo.leaderAddr = leaderAddr topo.leaderID topo.grpcAddrs
  addrs : Vouched history topo.grpcAddrs

/-- The command was made by a service, for a registration or for a record. -/
inductive Sourced (cmd : Bytes) : Prop
  | address (nodeID : UInt64) (grpcAddr : Bytes) (hshort : ShortAddr grpcAddr)
      (hregistered : (nodeID, grpcAddr) ∈ history.registered)
      (hcmd : cmd = encodeRegister nodeID grpcAddr)
  | record (order : RecordOrder) (topo : ShardTopology) (hfits : FitsTopology topo)
      (hdrawn : Drawn history topo) (hcmd : cmd = (fieldsOf order topo).encode)

/-- What a replica holds. -/
structure Founded (sm : MetadataStateMachine) : Prop where
  records : ∀ (id : UInt64) (topo : ShardTopology), sm.topology.shards[id]? = some topo →
    Drawn history topo
  addrs : Vouched history sm.grpcAddrs

/-- What a call has gathered. -/
def Gathered (call : TopologyService.Call) : Prop :=
  match call.phase with
  | .started => True
  | .membership membership => membership ∈ history.seen call.shardID
  | .leader membership leaderID _ grpcAddrs =>
      membership ∈ history.seen call.shardID ∧ Named history call.shardID leaderID ∧
        Vouched history grpcAddrs
  | .numbered topo => Drawn history topo
  | .proposed cmd => Sourced history cmd

/-- The history only grows. -/
structure Grows (later : History) : Prop where
  seen : ∀ shardID, history.seen shardID ⊆ later.seen shardID
  leaders : ∀ shardID, history.leaders shardID ⊆ later.leaders shardID
  registered : history.registered ⊆ later.registered

end Origin

section Decode

variable {history later : History} {cmd : Bytes}

theorem Sourced.drawn (hsourced : Sourced history cmd) {topo : ShardTopology}
    (hdecode : unmarshalUpdateTopologyCmd cmd = .ok topo) : Drawn history topo := by
  cases hsourced with
  | address nodeID grpcAddr hshort hregistered hcmd =>
      obtain ⟨fields, -, -, rest, hdata⟩ :=
        unmarshalUpdateTopologyCmd_eq_ok_iff.mp hdecode
      simp [hcmd, encodeRegister, Fields.encode] at hdata
  | record order stored hfits hdrawn hcmd =>
      have hstored := (unmarshalUpdateTopologyCmd_encode_iff order stored []).mpr hfits
      rw [List.append_nil, ← hcmd, hdecode, Except.ok.injEq] at hstored
      exact hstored ▸ hdrawn

theorem Sourced.mem_registered (hsourced : Sourced history cmd) {nodeID : UInt64}
    {grpcAddr : Bytes} (hdecode : unmarshalRegisterNodeAddrCmd cmd = .ok (nodeID, grpcAddr)) :
    (nodeID, grpcAddr) ∈ history.registered := by
  cases hsourced with
  | address other stored hshort hregistered hcmd =>
      have hstored := (unmarshalRegisterNodeAddrCmd_encode_iff other stored []).mpr hshort
      rw [List.append_nil, ← hcmd, hdecode, Except.ok.injEq] at hstored
      exact hstored ▸ hregistered
  | record order stored hfits hdrawn hcmd =>
      obtain ⟨-, rest, hdata⟩ := unmarshalRegisterNodeAddrCmd_eq_ok_iff.mp hdecode
      simp [hcmd, encodeRegister, Fields.encode] at hdata

theorem founded_new : Founded history newMetadataStateMachine where
  records id topo hstored := by simp [newMetadataStateMachine] at hstored
  addrs id addr hstored := by simp [newMetadataStateMachine] at hstored

/-- Applying an entry of the log. -/
theorem Founded.step {sm next : MetadataStateMachine} (hfounded : Founded history sm)
    (hsourced : Sourced history cmd) (heffect : Metadata.Effect sm cmd next) :
    Founded history next := by
  cases heffect with
  | refused => exact hfounded
  | @shard topo hdecode =>
      refine ⟨fun id stored hstored => ?_, hfounded.addrs⟩
      by_cases hid : topo.shardID = id
      · subst hid
        rw [MetadataStateMachine.putShard, Std.ExtTreeMap.getElem?_insert_self,
          Option.some.injEq] at hstored
        exact hstored ▸ hsourced.drawn hdecode
      · rw [MetadataStateMachine.putShard, getElem?_insert_ne hid] at hstored
        exact hfounded.records id stored hstored
  | @addr nodeID grpcAddr hdecode =>
      refine ⟨hfounded.records, fun id stored hstored => ?_⟩
      by_cases hid : nodeID = id
      · subst hid
        rw [MetadataStateMachine.putAddr, Std.ExtTreeMap.getElem?_insert_self,
          Option.some.injEq] at hstored
        exact hstored ▸ hsourced.mem_registered hdecode
      · rw [MetadataStateMachine.putAddr, getElem?_insert_ne hid] at hstored
        exact hfounded.addrs id stored hstored

theorem Vouched.mono {addrs : NodeMap} (hvouched : Vouched history addrs)
    (hgrows : Grows history later) : Vouched later addrs :=
  fun nodeID addr hstored => hgrows.registered (hvouched nodeID addr hstored)

theorem Named.mono {shardID leaderID : UInt64} (hnamed : Named history shardID leaderID)
    (hgrows : Grows history later) : Named later shardID leaderID :=
  hnamed.imp_right fun hleader => hgrows.leaders shardID hleader

theorem Drawn.mono {topo : ShardTopology} (hdrawn : Drawn history topo)
    (hgrows : Grows history later) : Drawn later topo where
  origin := hdrawn.origin.imp fun _ horigin => ⟨hgrows.seen _ horigin.1, horigin.2⟩
  named := hdrawn.named.mono hgrows
  leader := hdrawn.leader
  addrs := hdrawn.addrs.mono hgrows

theorem Sourced.mono (hsourced : Sourced history cmd) (hgrows : Grows history later) :
    Sourced later cmd := by
  cases hsourced with
  | address nodeID grpcAddr hshort hregistered hcmd =>
      exact .address nodeID grpcAddr hshort (hgrows.registered hregistered) hcmd
  | record order topo hfits hdrawn hcmd =>
      exact .record order topo hfits (hdrawn.mono hgrows) hcmd

theorem Founded.mono {sm : MetadataStateMachine} (hfounded : Founded history sm)
    (hgrows : Grows history later) : Founded later sm where
  records id topo hstored := (hfounded.records id topo hstored).mono hgrows
  addrs := hfounded.addrs.mono hgrows

theorem Gathered.mono {call : TopologyService.Call} (hgathered : Gathered history call)
    (hgrows : Grows history later) : Gathered later call := by
  obtain ⟨service, shardID, phase⟩ := call
  cases phase with
  | started => trivial
  | membership membership => exact hgrows.seen shardID hgathered
  | leader membership leaderID term grpcAddrs =>
      obtain ⟨hseen, hnamed, hvouched⟩ := hgathered
      exact ⟨hgrows.seen shardID hseen, Named.mono hnamed hgrows, hvouched.mono hgrows⟩
  | numbered topo => exact Drawn.mono hgathered hgrows
  | proposed cmd => exact Sourced.mono hgathered hgrows

theorem subset_update {α : Type*} (table : UInt64 → List α) (changed : UInt64) (entry : α)
    (shardID : UInt64) :
    table shardID ⊆ Function.update table changed (entry :: table changed) shardID := by
  by_cases hsame : shardID = changed
  · subst hsame
    rw [Function.update_self]
    exact List.subset_cons_self _ _
  · rw [Function.update_of_ne hsame]
    exact List.Subset.refl _

theorem Grows.refl (history : History) : Grows history history :=
  ⟨fun _ => List.Subset.refl _, fun _ => List.Subset.refl _, List.Subset.refl _⟩

theorem grows_after (history : History) (cluster : Cluster)
    (action : TopologyService.Action) : Grows history (history.after cluster action) := by
  cases action with
  | reconfigure changed membership =>
      exact ⟨subset_update history.seen changed membership, (Grows.refl history).leaders,
        List.Subset.refl _⟩
  | readLeader id answer grpcAddrs =>
      cases answer with
      | none => exact .refl history
      | some pair =>
          cases hcall : cluster.calls[id]? with
          | none =>
              simp only [History.after, hcall]
              exact .refl history
          | some call =>
              simp only [History.after, hcall]
              exact ⟨(Grows.refl history).seen,
                subset_update history.leaders call.shardID pair.1, List.Subset.refl _⟩
  | registerNodeAddr nodeID grpcAddr =>
      exact ⟨(Grows.refl history).seen, (Grows.refl history).leaders,
        List.subset_cons_self _ _⟩
  | begin | readMembership | takeEpoch | propose | apply | lose => exact .refl history

/-- What `publishTopology` takes for the leader: an error or an invalid answer is 0. -/
theorem named_readLeader {cluster : Cluster} {id : ℕ} {call : TopologyService.Call}
    (hcall : cluster.calls[id]? = some call) {answer : Option (UInt64 × UInt64)}
    {leaderID term : UInt64} (hanswer : answer.getD (0, 0) = (leaderID, term))
    (grpcAddrs : NodeMap) :
    Named (history.after cluster (.readLeader id answer grpcAddrs)) call.shardID leaderID := by
  cases answer with
  | none =>
      cases hanswer
      exact .inl rfl
  | some pair =>
      cases hanswer
      right
      simp only [History.after, hcall, Function.update_self]
      exact List.mem_cons_self

end Decode

/-! ## Replicas and the log -/

/-- The same answers; only the epochs may differ. -/
structure SameRecords (left right : MetadataStateMachine) : Prop where
  shards : left.topology.shards = right.topology.shards
  addrs : left.grpcAddrs = right.grpcAddrs

/-- The state holds what the first entries of the log have put there. -/
def Shows (log : List Bytes) (applied : ℕ) (sm : MetadataStateMachine) : Prop :=
  ∃ full, play newMetadataStateMachine (log.take applied) = .ok full ∧ SameRecords full sm

theorem SameRecords.update {left right leftNext : MetadataStateMachine} {cmd : Bytes}
    {value : UInt64} (hsame : SameRecords left right)
    (hupdate : Metadata.update left cmd = .ok (leftNext, value)) :
    ∃ rightNext, Metadata.update right cmd = .ok (rightNext, value) ∧
      SameRecords leftNext rightNext := by
  cases cmd with
  | nil =>
      cases hupdate
      exact ⟨right, rfl, hsame⟩
  | cons tag rest =>
      rw [Metadata.update] at hupdate ⊢
      cases htag : commandType tag with
      | unknown other =>
          rw [htag] at hupdate
          cases hupdate
          exact ⟨right, rfl, hsame⟩
      | updateTopology =>
          rw [htag] at hupdate
          simp only at hupdate ⊢
          cases hdecode : unmarshalUpdateTopologyCmd (tag :: rest) with
          | ok topo =>
              rw [hdecode] at hupdate
              cases hupdate
              refine ⟨_, rfl, ?_, hsame.addrs⟩
              simp only [MetadataStateMachine.putShard, hsame.shards]
          | error fault =>
              rw [hdecode] at hupdate
              cases fault with
              | panic reason => cases hupdate
              | error err =>
                  cases hupdate
                  exact ⟨right, rfl, hsame⟩
      | registerNodeAddr =>
          rw [htag] at hupdate
          simp only at hupdate ⊢
          cases hdecode : unmarshalRegisterNodeAddrCmd (tag :: rest) with
          | ok pair =>
              rw [hdecode] at hupdate
              cases hupdate
              refine ⟨_, rfl, hsame.shards, ?_⟩
              simp only [MetadataStateMachine.putAddr, hsame.addrs]
          | error fault =>
              rw [hdecode] at hupdate
              cases fault with
              | panic reason => cases hupdate
              | error err =>
                  cases hupdate
                  exact ⟨right, rfl, hsame⟩

theorem shows_new (log : List Bytes) : Shows log 0 newMetadataStateMachine :=
  ⟨_, rfl, rfl, rfl⟩

theorem Shows.append {log : List Bytes} {applied : ℕ} {sm : MetadataStateMachine}
    (hshows : Shows log applied sm) (hle : applied ≤ log.length) (more : List Bytes) :
    Shows (log ++ more) applied sm := by
  rw [Shows, List.take_append_of_le_length hle]
  exact hshows

theorem Shows.same {log : List Bytes} {applied : ℕ} {sm next : MetadataStateMachine}
    (hshows : Shows log applied sm) (hsame : SameRecords sm next) : Shows log applied next :=
  hshows.imp fun _ hfull => ⟨hfull.1, hfull.2.shards.trans hsame.shards,
    hfull.2.addrs.trans hsame.addrs⟩

theorem Shows.deliver {log : List Bytes} {applied : ℕ} {sm next : MetadataStateMachine}
    (hshows : Shows log applied sm) {cmd : Bytes} (hentry : log[applied]? = some cmd)
    {value : UInt64} (hupdate : Metadata.update sm cmd = .ok (next, value)) :
    Shows log (applied + 1) next := by
  obtain ⟨full, hplay, hsame⟩ := hshows
  obtain ⟨fullNext, fullValue, hfull, -⟩ := exists_update full cmd
  obtain ⟨other, hother, hsameNext⟩ := hsame.update hfull
  rw [hupdate] at hother
  cases hother
  refine ⟨fullNext, ?_, hsameNext⟩
  rw [List.take_add_one, hentry, play, List.foldlM_append]
  change (play newMetadataStateMachine (log.take applied)).bind _ = _
  rw [hplay]
  simp [Except.bind, hfull, Except.map, bind, pure, Except.pure]

theorem le_recoveredEpoch {entries : List (UInt64 × ShardTopology)} {start : UInt64} :
    start ≤ recoveredEpoch entries start ∧
      ∀ entry ∈ entries, entry.2.epoch ≤ recoveredEpoch entries start := by
  induction entries generalizing start with
  | nil => exact ⟨UInt64.le_refl _, fun _ hentry => absurd hentry List.not_mem_nil⟩
  | cons head entries ih =>
      obtain ⟨hraise, hown⟩ := le_raiseEpoch start head.2
      obtain ⟨hstart, hrest⟩ := @ih (raiseEpoch start head.2)
      refine ⟨UInt64.le_trans hraise hstart, fun entry hentry => ?_⟩
      rcases List.mem_cons.mp hentry with rfl | hlater
      · exact UInt64.le_trans hown hstart
      · exact hrest entry hlater

/-- A snapshot that is recovered without an error brings back the records. -/
theorem sameRecords_recover {saved next prior : MetadataStateMachine}
    (hformed : WellFormed saved) (hcountable : Countable saved) {order : SaveOrder}
    (hrecover : recoverFromSnapshot prior ⟨serialise order saved, false⟩ = (next, .ok ())) :
    WellFormed next ∧ SameRecords saved next := by
  obtain ⟨haddrs, hshards⟩ := hcountable
  have hframed : Framed saved := by
    by_contra hlong
    apply recoverFromSnapshot_overlong order hformed haddrs hshards hlong prior
    rw [hrecover]
  rw [recoverFromSnapshot_serialise order hformed haddrs hshards hframed,
    Prod.mk.injEq] at hrecover
  obtain ⟨rfl, -⟩ := hrecover
  have hepochs : ∀ (id : UInt64) (topo : ShardTopology),
      saved.topology.shards[id]? = some topo →
        topo.epoch ≤ recoveredEpoch (order.shards.entries saved.topology.shards) 0 :=
    fun id topo hstored => le_recoveredEpoch.2 (id, topo) (EntryOrder.mem_entries.mpr hstored)
  exact ⟨⟨hformed.filed, hformed.fits, hepochs, hformed.addrs⟩, rfl, rfl⟩

/-! ## The states of the group

A property of the states that replicas and snapshots hold is kept if the new state has it,
if an entry of the log keeps it and if it depends on the records only. -/

section States

variable {system : System}

/-- The states that replicas and snapshots hold, with the number of entries applied. -/
structure States (P : MetadataStateMachine → ℕ → Prop) (system : System) : Prop where
  replicas : ∀ node, WellFormed (system.replicas node).sm ∧
    P (system.replicas node).sm (system.replicas node).applied
  snapshots : ∀ snapshot ∈ system.snapshots, ∃ order sm,
    snapshot.1 = serialise order sm ∧ Countable sm ∧ WellFormed sm ∧ P sm snapshot.2

variable {P Q : MetadataStateMachine → ℕ → Prop}

theorem States.imp (hstates : States P system)
    (himp : ∀ {sm : MetadataStateMachine} {applied : ℕ}, P sm applied → Q sm applied) :
    States Q system where
  replicas node := (hstates.replicas node).imp_right himp
  snapshots snapshot hsnapshot := by
    obtain ⟨order, sm, hbytes, hcountable, hformed, hholds⟩ :=
      hstates.snapshots snapshot hsnapshot
    exact ⟨order, sm, hbytes, hcountable, hformed, himp hholds⟩

/-- The replica of a node is replaced by another state of the group. -/
theorem States.setReplica (hstates : States P system) (node : ℕ) {replica : Replica}
    (hreplica : WellFormed replica.sm ∧ P replica.sm replica.applied) :
    States P (system.setReplica node replica) where
  replicas other := by
    by_cases hsame : other = node
    · subst hsame
      simp only [System.setReplica, Function.update_self]
      exact hreplica
    · simp only [System.setReplica, Function.update_of_ne hsame]
      exact hstates.replicas other
  snapshots := hstates.snapshots

theorem States.step (hstates : States P system) (hnew : P newMetadataStateMachine 0)
    (hdeliver : ∀ {sm next : MetadataStateMachine} {applied : ℕ} {cmd : Bytes} {value : UInt64},
      P sm applied → system.log[applied]? = some cmd → update sm cmd = .ok (next, value) →
        P next (applied + 1))
    (hsame : ∀ {sm next : MetadataStateMachine} {applied : ℕ}, P sm applied →
      SameRecords sm next → P next applied)
    {action : Action} {next : System} (hcounted : Counted system action)
    (hstep : Directory.step system action = some next) : States P next := by
  cases action with
  | service action =>
      simp only [Directory.step, Option.ite_none_right_eq_some, Option.map_eq_some_iff]
        at hstep
      obtain ⟨-, cluster, -, rfl⟩ := hstep
      exact ⟨hstates.replicas, hstates.snapshots⟩
  | source node =>
      cases hstep
      exact hstates.setReplica node (hstates.replicas node)
  | deliver node =>
      obtain ⟨hformed, hholds⟩ := hstates.replicas node
      simp only [Directory.step] at hstep
      split at hstep
      · cases hstep
      · rename_i cmd hentry
        split at hstep
        · cases hstep
        · rename_i sm value hupdate
          cases hstep
          exact hstates.setReplica node ⟨hformed.step (effect_of_update hupdate),
            hdeliver hholds hentry hupdate⟩
  | save node order =>
      simp only [Directory.step, saveSnapshot_eq] at hstep
      cases hstep
      refine ⟨hstates.replicas, fun snapshot hsnapshot => ?_⟩
      rcases List.mem_append.mp hsnapshot with hbefore | hnew
      · exact hstates.snapshots snapshot hbefore
      · rw [List.mem_singleton.mp hnew]
        exact ⟨order, _, rfl, hcounted, hstates.replicas node⟩
  | install node position =>
      simp only [Directory.step] at hstep
      split at hstep
      · cases hstep
      · rename_i bytes applied hsnapshot
        split at hstep
        · rename_i sm hrecover
          cases hstep
          obtain ⟨order, saved, hbytes, hcountable, hformed, hholds⟩ :=
            hstates.snapshots _ (List.mem_of_getElem? hsnapshot)
          simp only at hbytes
          rw [hbytes] at hrecover
          obtain ⟨hrecovered, hrecords⟩ := sameRecords_recover hformed hcountable hrecover
          exact hstates.setReplica node ⟨hrecovered, hsame hholds hrecords⟩
        · cases hstep
  | restart node =>
      cases hstep
      have hstopped : States P { system with
          cluster := { system.cluster with
            epochs := Function.update system.cluster.epochs node 0
            calls := system.cluster.calls.filter fun _ call => survives node call } } :=
        ⟨hstates.replicas, hstates.snapshots⟩
      exact hstopped.setReplica node ⟨wellFormed_new, hnew⟩

theorem states_newSystem (hnew : P newMetadataStateMachine 0) : States P newSystem where
  replicas _ := ⟨wellFormed_new, hnew⟩
  snapshots _ hsnapshot := absurd hsnapshot List.not_mem_nil

end States

/-! ## Every state is a prefix of the log -/

/-- The state stands for the first entries of the log. -/
structure Follows (log : List Bytes) (sm : MetadataStateMachine) (applied : ℕ) : Prop where
  le : applied ≤ log.length
  shows : Shows log applied sm

/-- The log only grows. -/
theorem exists_log_of_step {system next : System} {action : Action}
    (hstep : step system action = some next) :
    ∃ entries, next.log = system.log ++ entries := by
  cases action with
  | service action =>
      simp only [step, Option.ite_none_right_eq_some, Option.map_eq_some_iff] at hstep
      obtain ⟨-, cluster, -, rfl⟩ := hstep
      exact ⟨_, rfl⟩
  | source | restart =>
      cases hstep
      exact ⟨[], (List.append_nil _).symm⟩
  | deliver | save | install =>
      simp only [step] at hstep
      repeat' split at hstep
      all_goals cases hstep
      all_goals exact ⟨[], (List.append_nil _).symm⟩

theorem Follows.append {log : List Bytes} {sm : MetadataStateMachine} {applied : ℕ}
    (hfollows : Follows log sm applied) (entries : List Bytes) :
    Follows (log ++ entries) sm applied where
  le := by
    rw [List.length_append]
    exact Nat.le_add_right_of_le hfollows.le
  shows := hfollows.shows.append hfollows.le entries

/-- Every state of the group follows the log. -/
def Aligned (system : System) : Prop := States (Follows system.log) system

theorem Aligned.step {system next : System} {action : Action} (haligned : Aligned system)
    (hcounted : Counted system action) (hstep : Directory.step system action = some next) :
    Aligned next := by
  obtain ⟨entries, hlog⟩ := exists_log_of_step hstep
  have hstates : States (Follows system.log) next :=
    States.step haligned ⟨Nat.zero_le _, shows_new _⟩
      (fun hfollows hentry hupdate => ⟨(List.getElem?_eq_some_iff.mp hentry).1,
        hfollows.shows.deliver hentry hupdate⟩)
      (fun hfollows hrecords => ⟨hfollows.le, hfollows.shows.same hrecords⟩)
      hcounted hstep
  rw [Aligned, hlog]
  exact hstates.imp fun hfollows => hfollows.append entries

theorem aligned_run {actions : List Action} {system : System}
    (hmeets : Meets step Counted newSystem actions)
    (hrun : run step newSystem actions = some system) : Aligned system :=
  run_invariant (fun _ _ _ haligned hcounted hstep => haligned.step hcounted hstep)
    (states_newSystem ⟨Nat.zero_le _, shows_new _⟩) hmeets hrun

/-! ## Every state has its origin in the history -/

structure Sound (system : System) : Prop where
  current : ∀ shardID, system.cluster.membership shardID ∈ system.history.seen shardID
  calls : ∀ (id : ℕ) (call : TopologyService.Call), system.cluster.calls[id]? = some call →
    Gathered system.history call
  log : ∀ cmd ∈ system.log, Sourced system.history cmd
  states : States (fun sm _ => Founded system.history sm) system

theorem sound_newSystem : Sound newSystem where
  current _ := List.mem_cons_self
  calls id call hcall := by simp [newSystem, newCluster] at hcall
  log _ hcmd := absurd hcmd List.not_mem_nil
  states := states_newSystem founded_new

section Steps

variable {system : System}

theorem getElem?_of_filter {table : Contents ℕ TopologyService.Call}
    {keep : ℕ → TopologyService.Call → Bool} {id : ℕ} {call : TopologyService.Call}
    (hcall : (table.filter keep)[id]? = some call) : table[id]? = some call := by
  rw [Std.ExtTreeMap.getElem?_filter', Option.filter_eq_some_iff] at hcall
  exact hcall.1

theorem Sound.vouched (hsound : Sound system) (node : ℕ) :
    Vouched system.history (system.replicas node).addresses := by
  rw [Replica.addresses]
  split_ifs
  · exact (hsound.states.replicas node).2.addrs
  · intro nodeID addr hstored
    simp at hstored

/-- What goes into the log was made by a service. -/
theorem Sound.committed (hsound : Sound system) {action : TopologyService.Action}
    (hwired : Wired system (.service action)) {cmd : Bytes}
    (hcommitted : committed system.cluster action = some cmd) :
    Sourced (system.history.after system.cluster action) cmd := by
  cases action with
  | apply id =>
      simp only [Directory.committed] at hcommitted
      split at hcommitted
      · rename_i service shardID proposal hcall
        cases hcommitted
        exact hsound.calls id _ hcall
      · cases hcommitted
  | registerNodeAddr nodeID grpcAddr =>
      simp only [Directory.committed, marshalRegisterNodeAddrCmd_eq] at hcommitted
      cases hcommitted
      exact .address nodeID grpcAddr hwired List.mem_cons_self rfl
  | _ => cases hcommitted

theorem Sound.setCall (hsound : Sound system) {later : History}
    (hgrows : Grows system.history later) {target id : ℕ} {call other : TopologyService.Call}
    (hother : (system.cluster.setCall target call).calls[id]? = some other)
    (hcall : Gathered later call) : Gathered later other := by
  by_cases hsame : target = id
  · subst hsame
    rw [Cluster.setCall, Std.ExtTreeMap.getElem?_insert_self, Option.some.injEq] at hother
    exact hother ▸ hcall
  · rw [Cluster.setCall, getElem?_insert_ne hsame] at hother
    exact (hsound.calls id other hother).mono hgrows

/-- The calls after a step of the services have gathered nothing else. -/
theorem Sound.gathered (hsound : Sound system) {action : TopologyService.Action}
    {cluster : Cluster} (hwired : Wired system (.service action))
    (hreads : system.reads action = true)
    (heffect : TopologyService.Effect system.cluster action cluster) (id : ℕ)
    (call : TopologyService.Call) (hcall : cluster.calls[id]? = some call) :
    Gathered (system.history.after system.cluster action) call := by
  have hgrows := grows_after system.history system.cluster action
  cases heffect with
  | reconfigure | registerNodeAddr => exact (hsound.calls id call hcall).mono hgrows
  | begin hnew => exact hsound.setCall hgrows hcall trivial
  | @readMembership _ _ shardID hstarted =>
      exact hsound.setCall hgrows hcall (hsound.current shardID)
  | @readLeader target service shardID membership answer grpcAddrs leaderID term hanswer
      hmembership =>
      have hseen : membership ∈ system.history.seen shardID :=
        hsound.calls target _ hmembership
      have hsource : grpcAddrs = (system.replicas service).addresses := by
        simpa [System.reads, hmembership] using hreads
      have hvouched : Vouched system.history grpcAddrs := hsource ▸ hsound.vouched service
      exact hsound.setCall hgrows hcall ⟨hgrows.seen shardID hseen,
        named_readLeader hmembership hanswer grpcAddrs, hvouched.mono hgrows⟩
  | @takeEpoch target service shardID leaderID term membership grpcAddrs hleader =>
      obtain ⟨hseen, hnamed, hvouched⟩ := hsound.calls target _ hleader
      have hdrawn : Drawn system.history (topologyOf shardID leaderID term
          (system.cluster.epochs service + 1) membership grpcAddrs) :=
        ⟨⟨membership, hseen, rfl⟩, hnamed, rfl, hvouched⟩
      exact hsound.setCall hgrows hcall hdrawn
  | @propose target service shardID topo order hnumbered =>
      have hfits : FitsTopology topo := hwired _ hnumbered
      have hsourced : Sourced system.history (fieldsOf order topo).encode :=
        .record order topo hfits (hsound.calls target _ hnumbered) rfl
      exact hsound.setCall hgrows hcall hsourced
  | apply | finish =>
      exact (hsound.calls id call (getElem?_endCall hcall).2).mono hgrows

theorem Sound.service (hsound : Sound system) {action : TopologyService.Action}
    {cluster : Cluster} (hwired : Wired system (.service action))
    (hreads : system.reads action = true)
    (heffect : TopologyService.Effect system.cluster action cluster) :
    Sound { system with
      cluster
      log := system.log ++ (Directory.committed system.cluster action).toList
      history := system.history.after system.cluster action } := by
  have hgrows := grows_after system.history system.cluster action
  refine ⟨fun shardID => ?_, fun id call hcall =>
    hsound.gathered hwired hreads heffect id call hcall, fun cmd hcmd => ?_, ?_⟩
  · cases heffect with
    | @reconfigure changed membership hgrows =>
        by_cases hsame : shardID = changed
        · subst hsame
          simp only [History.after, Function.update_self]
          exact List.mem_cons_self
        · simp only [History.after, Function.update_of_ne hsame]
          exact hsound.current shardID
    | _ => exact hgrows.seen shardID (hsound.current shardID)
  · rcases List.mem_append.mp hcmd with hbefore | hnew
    · exact (hsound.log cmd hbefore).mono hgrows
    · exact hsound.committed hwired (Option.mem_toList.mp hnew)
  · have hstates : States (fun sm _ => Founded (system.history.after system.cluster action) sm)
        system := hsound.states.imp fun hfounded => hfounded.mono hgrows
    exact ⟨hstates.replicas, hstates.snapshots⟩

theorem Sound.step (hsound : Sound system) {action : Action} {next : System}
    (hwired : Wired system action) (hstep : Directory.step system action = some next) :
    Sound next := by
  have hstates : States (fun sm _ => Founded system.history sm) next :=
    hsound.states.step founded_new
      (fun hfounded hentry hupdate => hfounded.step
        (hsound.log _ (List.mem_of_getElem? hentry)) (effect_of_update hupdate))
      (fun hfounded hrecords => ⟨hrecords.shards ▸ hfounded.records,
        hrecords.addrs ▸ hfounded.addrs⟩)
      hwired.counted hstep
  cases action with
  | service action =>
      simp only [Directory.step, Option.ite_none_right_eq_some, Option.map_eq_some_iff]
        at hstep
      obtain ⟨hreads, cluster, hcluster, rfl⟩ := hstep
      exact hsound.service hwired hreads (effect_of_step hcluster)
  | source node =>
      cases hstep
      exact ⟨hsound.current, hsound.calls, hsound.log, hstates⟩
  | deliver | save | install =>
      simp only [Directory.step] at hstep
      repeat' split at hstep
      all_goals cases hstep
      all_goals exact ⟨hsound.current, hsound.calls, hsound.log, hstates⟩
  | restart node =>
      cases hstep
      exact ⟨hsound.current, fun id call hcall => hsound.calls id call
        (getElem?_of_filter hcall), hsound.log, hstates⟩

end Steps

theorem sound_run {actions : List Action} {system : System}
    (hmeets : Meets step Wired newSystem actions)
    (hrun : run step newSystem actions = some system) : Sound system :=
  run_invariant (fun _ _ _ hsound hwired hstep => hsound.step hwired hstep)
    sound_newSystem hmeets hrun

/-! ## What a client reads -/

/-- The answer lists the voters of one membership of the shard, each under an address that
the node has registered or under its Raft address, and marks the leader, which was named for
the shard or is 0 and whose address was registered or is missing. -/
structure Reported (history : History) (shardID : UInt64) (resp : ClusterInfoResponse) :
    Prop where
  nodes : ∃ membership ∈ history.seen shardID,
    (resp.nodes.map NodeInfo.nodeID).Perm (membership.nodes.toList.map Prod.fst) ∧
      ∀ info ∈ resp.nodes, membership.nodes[info.nodeID]? = some info.address ∨
        (info.nodeID, info.address) ∈ history.registered
  marked : ∀ info ∈ resp.nodes, info.isLeader = true ↔ info.nodeID = resp.leaderNodeID
  named : Named history shardID resp.leaderNodeID
  leader : resp.leaderAddress = [] ∨
    (resp.leaderNodeID, resp.leaderAddress) ∈ history.registered

section Answers

variable {history : History} {topo : ShardTopology}

theorem Vouched.address {addrs : NodeMap} (hvouched : Vouched history addrs)
    (nodeID : UInt64) : (addrs[nodeID]?).getD [] = [] ∨
      (nodeID, (addrs[nodeID]?).getD []) ∈ history.registered := by
  cases hstored : addrs[nodeID]? with
  | none => exact .inl rfl
  | some addr => exact .inr (hvouched nodeID addr hstored)

theorem Drawn.nodeAddress (hdrawn : Drawn history topo) {nodeID : UInt64}
    {raftAddr : Bytes} (hnode : topo.nodes[nodeID]? = some raftAddr) :
    nodeAddress topo nodeID = raftAddr ∨
      (nodeID, nodeAddress topo nodeID) ∈ history.registered := by
  rw [Directory.nodeAddress]
  rcases hdrawn.addrs.address nodeID with hmissing | hregistered
  · rw [hmissing, if_pos rfl, hnode]
    exact .inl rfl
  · split_ifs
    · exact .inl (by rw [hnode]; rfl)
    · exact .inr hregistered

theorem Drawn.leaderAddress (hdrawn : Drawn history topo) :
    topo.leaderAddr = [] ∨ (topo.leaderID, topo.leaderAddr) ∈ history.registered := by
  rw [hdrawn.leader, leaderAddr]
  split_ifs
  · exact hdrawn.addrs.address topo.leaderID
  · exact .inl rfl

end Answers

theorem getClusterInfo_eq_ok {order : EntryOrder Bytes} {sm : MetadataStateMachine}
    {shardID : UInt64} {resp : ClusterInfoResponse}
    (hresp : getClusterInfo order (some sm) shardID = .ok resp) :
    ∃ topo, sm.topology.shards[shardID]? = some topo ∧ resp = {
      leaderNodeID := topo.leaderID
      leaderAddress := topo.leaderAddr
      nodes := (order.entries topo.nodes).map fun entry =>
        ⟨entry.1, nodeAddress topo entry.1, entry.1 == topo.leaderID, true⟩ } := by
  simp only [getClusterInfo, getShardTopology] at hresp
  cases hstored : sm.topology.shards[shardID]? with
  | none =>
      rw [hstored] at hresp
      cases hresp
  | some topo =>
      rw [hstored] at hresp
      exact ⟨topo, rfl, (Except.ok.inj hresp).symm⟩

/-- However far a replica is behind, restarted or restored, and however the services of the
nodes overtake each other: what it tells a client was listed or named by Dragonboat or
registered by the nodes. -/
theorem cluster_info_has_origin {actions : List Action} {system : System}
    (hmeets : Meets step Wired newSystem actions)
    (hrun : run step newSystem actions = some system) {order : EntryOrder Bytes} {node : ℕ}
    {shardID : UInt64} {resp : ClusterInfoResponse}
    (hresp : getClusterInfo order (some (system.replicas node).sm) shardID = .ok resp) :
    Reported system.history shardID resp := by
  obtain ⟨hformed, hfounded⟩ := (sound_run hmeets hrun).states.replicas node
  obtain ⟨topo, hstored, rfl⟩ := getClusterInfo_eq_ok hresp
  have hdrawn := hfounded.records shardID topo hstored
  obtain ⟨membership, hseen, hnodes⟩ := hdrawn.origin
  have hnamed := hdrawn.named
  rw [hformed.filed shardID topo hstored] at hseen hnamed
  refine ⟨⟨membership, hseen, ?_, ?_⟩, ?_, hnamed, hdrawn.leaderAddress⟩
  · rw [List.map_map, ← hnodes]
    exact (order.perm _).map Prod.fst
  · rw [List.forall_mem_map]
    intro entry hentry
    have hnode := EntryOrder.mem_entries.mp hentry
    exact (hdrawn.nodeAddress hnode).imp_left fun haddr => by
      rw [← hnodes, haddr]
      exact hnode
  · rw [List.forall_mem_map]
    intro entry hentry
    exact beq_iff_eq

/-- Node 0 registers its address and publishes the shard; node 1 takes its snapshot. -/
def introduction : List Action :=
  [.source 0, .service (.registerNodeAddr 1 [97]), .deliver 0,
    .service (.reconfigure 7 ⟨1, (∅ : NodeMap).insert 1 [98], ∅, ∅⟩),
    .service (.begin 0 0 7), .service (.readMembership 0 true),
    .service (.readLeader 0 (some (1, 5)) ((∅ : NodeMap).insert 1 [97])),
    .service (.takeEpoch 0), .service (.propose 0 .sorted), .service (.apply 0),
    .deliver 0, .save 0 .sorted, .install 1 0]

theorem cluster_info_has_origin_snapshot :
    ∃ system, run step newSystem introduction = some system ∧
      system.history.leaders 7 = [1] ∧
      Reported system.history 7 ⟨1, [97], [⟨1, [97], true, true⟩]⟩ := by
  have hmeets : Meets step Wired newSystem introduction := by decide +kernel
  have hexists : ∃ system, run step newSystem introduction = some system ∧
      system.history.leaders 7 = [1] ∧
      getClusterInfo .sorted (some (system.replicas 1).sm) 7 =
        .ok ⟨1, [97], [⟨1, [97], true, true⟩]⟩ :=
    exists_finish_of_any (by decide +kernel)
  obtain ⟨system, hrun, hleaders, hresp⟩ := hexists
  exact ⟨system, hrun, hleaders, cluster_info_has_origin hmeets hrun hresp⟩

/-- Two replicas that have applied the same number of entries, in whatever way, answer
alike. -/
theorem replicas_answer_alike {actions : List Action} {system : System}
    (hmeets : Meets step Counted newSystem actions)
    (hrun : run step newSystem actions = some system) {left right : ℕ}
    (happlied : (system.replicas left).applied = (system.replicas right).applied)
    (order : EntryOrder Bytes) (shardID : UInt64) :
    getClusterInfo order (some (system.replicas left).sm) shardID =
        getClusterInfo order (some (system.replicas right).sm) shardID ∧
      getGrpcAddrs (system.replicas left).sm = getGrpcAddrs (system.replicas right).sm := by
  have hstates := aligned_run hmeets hrun
  obtain ⟨leftFull, hleft, hleftSame⟩ := (hstates.replicas left).2.shows
  obtain ⟨rightFull, hright, hrightSame⟩ := (hstates.replicas right).2.shows
  rw [happlied, hright, Except.ok.injEq] at hleft
  subst hleft
  have hshards := hleftSame.shards.symm.trans hrightSame.shards
  refine ⟨?_, hleftSame.addrs.symm.trans hrightSame.addrs⟩
  simp only [getClusterInfo, getShardTopology, hshards]

theorem replicas_answer_alike_snapshot :
    ∃ system, run step newSystem introduction = some system ∧
      getClusterInfo .sorted (some (system.replicas 0).sm) 7 =
        getClusterInfo .sorted (some (system.replicas 1).sm) 7 := by
  have hmeets : Meets step Counted newSystem introduction := by decide +kernel
  have hexists : ∃ system, run step newSystem introduction = some system ∧
      (system.replicas 0).applied = (system.replicas 1).applied :=
    exists_finish_of_any (by decide +kernel)
  obtain ⟨system, hrun, happlied⟩ := hexists
  exact ⟨system, hrun, (replicas_answer_alike hmeets hrun happlied .sorted 7).1⟩

end FutureQ.Directory
