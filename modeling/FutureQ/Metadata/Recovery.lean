import FutureQ.Metadata.StateMachine
import FutureQ.Event.Snapshot

/-!
# Snapshots of the metadata state machine

A snapshot holds the registry and the shard records, each as a length-prefixed
command; the global epoch is not saved but computed again from the records.
In a running replica that epoch also remembers records that were replaced, so a
replica is restored exactly when its epoch is still carried by a record it
holds.  The length of a command is written with 32 bits, and a record can be
longer than that.
-/

namespace FutureQ.Metadata

open FutureQ.ByteOrder
open FutureQ.GoRuntime
open FutureQ.OrderedStore
open FutureQ.Snapshot (SnapshotError Sink Source write readFull readFull_append)

inductive MetadataError where
  | stream (err : SnapshotError)
  | command (err : CommandError)
  deriving DecidableEq, Repr

def wrapCommand : Fault CommandError → Fault MetadataError
  | .error err => .error (.command err)
  | .panic reason => .panic reason

def onStream {α : Type} (result : Except SnapshotError α) :
    GoResult MetadataError α :=
  result.mapError fun err => .error (.stream err)

def onCommand {α : Type} (result : GoResult CommandError α) :
    GoResult MetadataError α :=
  result.mapError wrapCommand

/-! ## Saving -/

/-- The orders in which one `SaveSnapshot` visits its maps. -/
structure SaveOrder where
  grpcAddrs : EntryOrder Bytes
  shards : EntryOrder ShardTopology
  record : UInt64 → RecordOrder

def SaveOrder.sorted : SaveOrder := ⟨.sorted, .sorted, fun _ => .sorted⟩

def writeUint32 (refuses : ℕ → Bool) (sink : Sink) (v : UInt32) :
    GoResult MetadataError Sink :=
  onStream (write refuses sink (putUint32 v))

def writeCommand (refuses : ℕ → Bool) (sink : Sink) (cmd : Bytes) :
    GoResult MetadataError Sink := do
  let sink ← writeUint32 refuses sink (UInt32.ofNat cmd.length)
  onStream (write refuses sink cmd)

def saveAddr (refuses : ℕ → Bool) (sink : Sink) (entry : UInt64 × Bytes) :
    GoResult MetadataError Sink := do
  let cmd ← onCommand (marshalRegisterNodeAddrCmd entry.1 entry.2)
  writeCommand refuses sink cmd

def saveShard (refuses : ℕ → Bool) (order : SaveOrder) (sink : Sink)
    (entry : UInt64 × ShardTopology) : GoResult MetadataError Sink := do
  let cmd ← onCommand (marshalUpdateTopologyCmd (order.record entry.1) entry.2)
  writeCommand refuses sink cmd

def saveSnapshot (refuses : ℕ → Bool) (order : SaveOrder)
    (s : MetadataStateMachine) : GoResult MetadataError Bytes := do
  let sink ← writeUint32 refuses ⟨[], 0⟩ (UInt32.ofNat s.grpcAddrs.size)
  let sink ← (order.grpcAddrs.entries s.grpcAddrs).foldlM (saveAddr refuses) sink
  let sink ← writeUint32 refuses sink (UInt32.ofNat s.topology.shards.size)
  let sink ← (order.shards.entries s.topology.shards).foldlM
    (saveShard refuses order) sink
  return sink.written

/-! ## Recovering -/

def readUint32 (source : Source) : GoResult MetadataError (UInt32 × Source) := do
  let (b, source) ← onStream (readFull 4 source)
  return (uint32 b, source)

def readCommand (source : Source) : GoResult MetadataError (Bytes × Source) := do
  let (cmdLen, source) ← readUint32 source
  onStream (readFull cmdLen.toNat source)

def recoverAddr (s : MetadataStateMachine) (cmd : Bytes) :
    GoResult CommandError MetadataStateMachine := do
  let (nodeID, addr) ← unmarshalRegisterNodeAddrCmd cmd
  return s.putAddr nodeID addr

def recoverShard (s : MetadataStateMachine) (cmd : Bytes) :
    GoResult CommandError MetadataStateMachine := do
  let topo ← unmarshalUpdateTopologyCmd cmd
  return s.putShard topo

/-- The loop over a counted list of commands; the state keeps what was read
before an error. -/
def recoverLoop
    (apply : MetadataStateMachine → Bytes → GoResult CommandError MetadataStateMachine) :
    ℕ → Source → MetadataStateMachine →
      MetadataStateMachine × GoResult MetadataError Source
  | 0, source, s => (s, .ok source)
  | remaining + 1, source, s =>
      match readCommand source with
      | .error fault => (s, .error fault)
      | .ok (cmd, source) =>
          match onCommand (apply s cmd) with
          | .error fault => (s, .error fault)
          | .ok s => recoverLoop apply remaining source s

/-- A counted list of commands. -/
def recoverList
    (apply : MetadataStateMachine → Bytes → GoResult CommandError MetadataStateMachine)
    (source : Source) (s : MetadataStateMachine) :
    MetadataStateMachine × GoResult MetadataError Source :=
  match readUint32 source with
  | .error fault => (s, .error fault)
  | .ok (count, source) => recoverLoop apply count.toNat source s

/-- `RecoverFromSnapshot`: the state after the call and how the call ended.  The
prior state is discarded first. -/
def recoverFromSnapshot (_prior : MetadataStateMachine) (source : Source) :
    MetadataStateMachine × GoResult MetadataError Unit :=
  match recoverList recoverAddr source newMetadataStateMachine with
  | (s, .error fault) => (s, .error fault)
  | (s, .ok source) =>
      match recoverList recoverShard source s with
      | (s, .error fault) => (s, .error fault)
      | (s, .ok _) => (s, .ok ())

/-! ## The bytes of a snapshot -/

def frame (cmd : Bytes) : Bytes :=
  putUint32 (UInt32.ofNat cmd.length) ++ cmd

def addrCommand (entry : UInt64 × Bytes) : Bytes :=
  encodeRegister entry.1 entry.2

def shardCommand (order : SaveOrder) (entry : UInt64 × ShardTopology) : Bytes :=
  (fieldsOf (order.record entry.1) entry.2).encode

/-- The number of values and their framed commands. -/
def counted {β : Type} (command : β → Bytes) (values : List β) : Bytes :=
  putUint32 (UInt32.ofNat values.length) ++
    values.flatMap fun value => frame (command value)

def serialise (order : SaveOrder) (s : MetadataStateMachine) : Bytes :=
  counted addrCommand (order.grpcAddrs.entries s.grpcAddrs) ++
    counted (shardCommand order) (order.shards.entries s.topology.shards)

theorem writeCommand_accepted (sink : Sink) (cmd : Bytes) :
    writeCommand (fun _ => false) sink cmd =
      .ok ⟨sink.written ++ frame cmd, sink.calls + 2⟩ := by
  simp [writeCommand, writeUint32, onStream, write, frame, Except.mapError, bind,
    Except.bind]

theorem foldlM_save {β : Type} {command : β → Bytes}
    {save : Sink → β → GoResult MetadataError Sink}
    (hsave : ∀ sink value, save sink value =
      .ok ⟨sink.written ++ frame (command value), sink.calls + 2⟩)
    (values : List β) (sink : Sink) :
    values.foldlM save sink =
      .ok ⟨sink.written ++ values.flatMap (fun value => frame (command value)),
        sink.calls + 2 * values.length⟩ := by
  induction values generalizing sink with
  | nil => simp [pure, Except.pure]
  | cons value values ih =>
      have hcalls : sink.calls + 2 + 2 * values.length =
          sink.calls + 2 * (values.length + 1) := by ring
      rw [List.foldlM_cons, hsave, ok_bind, ih]
      simp only [List.flatMap_cons, List.append_assoc, List.length_cons, hcalls]

theorem saveAddr_accepted (sink : Sink) (entry : UInt64 × Bytes) :
    saveAddr (fun _ => false) sink entry =
      .ok ⟨sink.written ++ frame (addrCommand entry), sink.calls + 2⟩ := by
  rw [saveAddr, marshalRegisterNodeAddrCmd_eq]
  exact writeCommand_accepted sink _

theorem saveShard_accepted (order : SaveOrder) (sink : Sink)
    (entry : UInt64 × ShardTopology) :
    saveShard (fun _ => false) order sink entry =
      .ok ⟨sink.written ++ frame (shardCommand order entry), sink.calls + 2⟩ := by
  rw [saveShard, marshalUpdateTopologyCmd_eq]
  exact writeCommand_accepted sink _

/-- Unless its writer fails, `SaveSnapshot` writes the registry and the shard
records. -/
theorem saveSnapshot_eq (order : SaveOrder) (s : MetadataStateMachine) :
    saveSnapshot (fun _ => false) order s = .ok (serialise order s) := by
  have hwrite : ∀ sink v, writeUint32 (fun _ => false) sink v =
      .ok ⟨sink.written ++ putUint32 v, sink.calls + 1⟩ := fun _ _ => rfl
  rw [saveSnapshot, hwrite, ok_bind, foldlM_save saveAddr_accepted, ok_bind, hwrite,
    ok_bind, foldlM_save (saveShard_accepted order), ok_bind]
  simp only [serialise, counted, EntryOrder.length_entries, List.nil_append,
    List.append_assoc]
  rfl

/-! ## Reading the bytes back -/

theorem readUint32_append (v : UInt32) (rest : Bytes) :
    readUint32 ⟨putUint32 v ++ rest, false⟩ = .ok (v, ⟨rest, false⟩) := by
  rw [readUint32, readFull_append (length_putUint32 v).symm]
  change Except.ok (uint32 (putUint32 v), _) = _
  rw [uint32_putUint32]

/-- The command that is read is as long as its 32-bit length says. -/
theorem readCommand_frame (cmd rest : Bytes) :
    readCommand ⟨frame cmd ++ rest, false⟩ =
      .ok (cmd.take (cmd.length % 2 ^ 32),
        ⟨cmd.drop (cmd.length % 2 ^ 32) ++ rest, false⟩) := by
  have hlength : (UInt32.ofNat cmd.length).toNat = cmd.length % 2 ^ 32 :=
    UInt32.toNat_ofNat'
  have hle : cmd.length % 2 ^ 32 ≤ cmd.length := Nat.mod_le _ _
  have hsplit : cmd ++ rest = cmd.take (cmd.length % 2 ^ 32) ++
      (cmd.drop (cmd.length % 2 ^ 32) ++ rest) := by
    rw [← List.append_assoc, List.take_append_drop]
  rw [frame, List.append_assoc, readCommand, readUint32_append, ok_bind]
  simp only [hlength]
  rw [hsplit, readFull_append (by rw [List.length_take, Nat.min_eq_left hle])]
  rfl

theorem readCommand_short {cmd : Bytes} (hshort : cmd.length < 2 ^ 32)
    (rest : Bytes) :
    readCommand ⟨frame cmd ++ rest, false⟩ = .ok (cmd, ⟨rest, false⟩) := by
  rw [readCommand_frame, Nat.mod_eq_of_lt hshort]
  simp

section Loop

variable {β : Type} {command : β → Bytes}
variable {put : MetadataStateMachine → β → MetadataStateMachine}
variable {apply : MetadataStateMachine → Bytes →
  GoResult CommandError MetadataStateMachine}

theorem recoverLoop_ok {source rest : Source} {cmd : Bytes}
    {s next : MetadataStateMachine} (hread : readCommand source = .ok (cmd, rest))
    (happly : apply s cmd = .ok next) (remaining : ℕ) :
    recoverLoop apply (remaining + 1) source s =
      recoverLoop apply remaining rest next := by
  simp only [recoverLoop, hread, happly, onCommand, Except.mapError]

theorem recoverLoop_error {source rest : Source} {cmd : Bytes}
    {s : MetadataStateMachine} {fault : Fault CommandError}
    (hread : readCommand source = .ok (cmd, rest))
    (happly : apply s cmd = .error fault) (remaining : ℕ) :
    recoverLoop apply (remaining + 1) source s = (s, .error (wrapCommand fault)) := by
  simp only [recoverLoop, hread, happly, onCommand, Except.mapError]

theorem recoverLoop_cons {value : β} (hshort : (command value).length < 2 ^ 32)
    {s : MetadataStateMachine}
    (happly : apply s (command value) = .ok (put s value)) (remaining : ℕ)
    (rest : Bytes) :
    recoverLoop apply (remaining + 1) ⟨frame (command value) ++ rest, false⟩ s =
      recoverLoop apply remaining ⟨rest, false⟩ (put s value) :=
  recoverLoop_ok (readCommand_short hshort rest) happly remaining

/-- Commands whose lengths fit are applied one after the other. -/
theorem recoverLoop_commands {values : List β}
    (hshort : ∀ value ∈ values, (command value).length < 2 ^ 32)
    (happly : ∀ s, ∀ value ∈ values, apply s (command value) = .ok (put s value))
    (s : MetadataStateMachine) (rest : Bytes) :
    recoverLoop apply values.length
        ⟨values.flatMap (fun value => frame (command value)) ++ rest, false⟩ s =
      (values.foldl put s, .ok ⟨rest, false⟩) := by
  induction values generalizing s with
  | nil => rfl
  | cons value values ih =>
      obtain ⟨hhead, htail⟩ := List.forall_mem_cons.mp hshort
      rw [List.flatMap_cons, List.append_assoc, List.length_cons,
        recoverLoop_cons hhead (happly s value List.mem_cons_self),
        ih htail fun s other hother =>
          happly s other (List.mem_cons_of_mem _ hother)]
      rfl

/-- A command that is too long for its length field stops the loop, provided no
proper front of it is accepted. -/
theorem recoverLoop_overlong {values : List β}
    (happly : ∀ s, ∀ value ∈ values, apply s (command value) = .ok (put s value))
    (hfront : ∀ s, ∀ value ∈ values, ∀ count < (command value).length, ∀ next,
      apply s ((command value).take count) ≠ .ok next)
    (hlong : ∃ value ∈ values, 2 ^ 32 ≤ (command value).length)
    (s : MetadataStateMachine) (rest : Bytes) (finish : Source) :
    (recoverLoop apply values.length
        ⟨values.flatMap (fun value => frame (command value)) ++ rest, false⟩ s).2 ≠
      .ok finish := by
  induction values generalizing s with
  | nil => simp at hlong
  | cons value values ih =>
      rw [List.flatMap_cons, List.append_assoc, List.length_cons]
      by_cases hshort : (command value).length < 2 ^ 32
      · rw [recoverLoop_cons hshort (happly s value List.mem_cons_self)]
        apply ih
        · exact fun s other hother => happly s other (List.mem_cons_of_mem _ hother)
        · exact fun s other hother => hfront s other (List.mem_cons_of_mem _ hother)
        · obtain ⟨long, hmem, hlength⟩ := hlong
          rcases List.mem_cons.mp hmem with rfl | hlater
          · omega
          · exact ⟨long, hlater, hlength⟩
      · have hcut : (command value).length % 2 ^ 32 < (command value).length := by
          have hmod := Nat.mod_lt (command value).length (show 0 < 2 ^ 32 by omega)
          omega
        have hrefused := hfront s value List.mem_cons_self _ hcut
        cases hcall : apply s
            ((command value).take ((command value).length % 2 ^ 32)) with
        | ok next => exact absurd hcall (hrefused next)
        | error fault =>
            rw [recoverLoop_error (readCommand_frame _ _) hcall]
            intro hok
            cases hok

variable (command apply) in
/-- A counted list is read by as many turns of the loop. -/
theorem recoverList_counted {values : List β} (hcount : values.length < 2 ^ 32)
    (s : MetadataStateMachine) (rest : Bytes) :
    recoverList apply ⟨counted command values ++ rest, false⟩ s =
      recoverLoop apply values.length
        ⟨values.flatMap (fun value => frame (command value)) ++ rest, false⟩ s := by
  have hlength : (UInt32.ofNat values.length).toNat = values.length :=
    UInt32.toNat_ofNat_of_lt' hcount
  rw [counted, List.append_assoc, recoverList, readUint32_append]
  simp only [hlength]

variable (command put apply) in
theorem recoverList_commands {values : List β} (hcount : values.length < 2 ^ 32)
    (hshort : ∀ value ∈ values, (command value).length < 2 ^ 32)
    (happly : ∀ s, ∀ value ∈ values, apply s (command value) = .ok (put s value))
    (s : MetadataStateMachine) (rest : Bytes) :
    recoverList apply ⟨counted command values ++ rest, false⟩ s =
      (values.foldl put s, .ok ⟨rest, false⟩) := by
  rw [recoverList_counted command apply hcount]
  exact recoverLoop_commands hshort happly s rest

variable (command put apply) in
theorem recoverList_overlong {values : List β} (hcount : values.length < 2 ^ 32)
    (happly : ∀ s, ∀ value ∈ values, apply s (command value) = .ok (put s value))
    (hfront : ∀ s, ∀ value ∈ values, ∀ count < (command value).length, ∀ next,
      apply s ((command value).take count) ≠ .ok next)
    (hlong : ∃ value ∈ values, 2 ^ 32 ≤ (command value).length)
    (s : MetadataStateMachine) (rest : Bytes) (finish : Source) :
    (recoverList apply ⟨counted command values ++ rest, false⟩ s).2 ≠
      .ok finish := by
  rw [recoverList_counted command apply hcount]
  exact recoverLoop_overlong happly hfront hlong s rest finish

end Loop

theorem foldl_putAddr (entries : Entries) (s : MetadataStateMachine) :
    entries.foldl (fun s entry => s.putAddr entry.1 entry.2) s =
      { s with
        grpcAddrs := commit s.grpcAddrs
          (entries.map fun entry => .set entry.1 entry.2) } := by
  induction entries generalizing s with
  | nil => rfl
  | cons entry entries ih =>
      rw [List.foldl_cons, ih]
      rfl

/-- The epoch that recovery computes from the records it reads. -/
def recoveredEpoch (entries : List (UInt64 × ShardTopology)) (start : UInt64) :
    UInt64 :=
  entries.foldl (fun epoch entry => raiseEpoch epoch entry.2) start

theorem foldl_putShard {entries : List (UInt64 × ShardTopology)}
    (hfiled : ∀ entry ∈ entries, entry.2.shardID = entry.1)
    (s : MetadataStateMachine) :
    entries.foldl (fun s entry => s.putShard entry.2) s =
      { s with
        topology :=
          { shards := commit s.topology.shards
              (entries.map fun entry => .set entry.1 entry.2)
            epoch := recoveredEpoch entries s.topology.epoch } } := by
  induction entries generalizing s with
  | nil => rfl
  | cons entry entries ih =>
      obtain ⟨hhead, htail⟩ := List.forall_mem_cons.mp hfiled
      rw [List.foldl_cons, ih htail, MetadataStateMachine.putShard, hhead]
      rfl

/-- The computed epoch reaches a bound exactly when a record carries it. -/
theorem recoveredEpoch_eq_iff {entries : List (UInt64 × ShardTopology)}
    {bound start : UInt64} (hbound : ∀ entry ∈ entries, entry.2.epoch ≤ bound)
    (hstart : start ≤ bound) :
    recoveredEpoch entries start = bound ↔
      start = bound ∨ ∃ entry ∈ entries, entry.2.epoch = bound := by
  induction entries generalizing start with
  | nil => simp [recoveredEpoch]
  | cons entry entries ih =>
      obtain ⟨hhead, htail⟩ := List.forall_mem_cons.mp hbound
      have hraised : raiseEpoch start entry.2 ≤ bound := by
        unfold raiseEpoch
        split
        · exact hhead
        · exact hstart
      have hreach : raiseEpoch start entry.2 = bound ↔
          start = bound ∨ entry.2.epoch = bound := by
        unfold raiseEpoch
        simp only [UInt64.le_iff_toNat_le, UInt64.lt_iff_toNat_lt,
          ← UInt64.toNat_inj] at hhead hstart ⊢
        split <;> omega
      change recoveredEpoch entries (raiseEpoch start entry.2) = bound ↔ _
      rw [ih htail hraised, hreach, or_assoc]
      simp

/-! ## When a replica is restored -/

/-- The queries of two replicas are answered alike. -/
structure SameAnswers (left right : MetadataStateMachine) : Prop where
  lookup : ∀ query, lookup left query = lookup right query
  topology : getTopology left = getTopology right
  grpcAddrs : getGrpcAddrs left = getGrpcAddrs right

/-- Recovery from the bytes that `saved` writes succeeds, yields the same state,
and the two replicas stay alike under further common entries. -/
def Restores (order : SaveOrder) (saved prior : MetadataStateMachine) : Prop :=
  ∃ bytes restored,
    saveSnapshot (fun _ => false) order saved = .ok bytes ∧
      recoverFromSnapshot prior ⟨bytes, false⟩ = (restored, .ok ()) ∧
      restored.topology.shards = saved.topology.shards ∧
      restored.topology.epoch = saved.topology.epoch ∧
      restored.grpcAddrs = saved.grpcAddrs ∧
      ∀ further, ∃ left right, play restored further = .ok left ∧
        play saved further = .ok right ∧ SameAnswers left right

/-- The global epoch is still carried by a stored record. -/
def Carried (s : MetadataStateMachine) : Prop :=
  s.topology.epoch = 0 ∨ ∃ (id : UInt64) (topo : ShardTopology),
    s.topology.shards[id]? = some topo ∧ topo.epoch = s.topology.epoch

/-- The command of every stored record is shorter than its length field can
say. -/
def Framed (s : MetadataStateMachine) : Prop :=
  ∀ (id : UInt64) (topo : ShardTopology), s.topology.shards[id]? = some topo →
    updateTopologySize topo < 2 ^ 32

section Recovery

variable {saved : MetadataStateMachine} (order : SaveOrder)

theorem length_shardCommand (entry : UInt64 × ShardTopology) :
    (shardCommand order entry).length = updateTopologySize entry.2 :=
  (updateTopologySize_eq _ _).symm

theorem recoverAddr_ok {s : MetadataStateMachine} {cmd addr : Bytes}
    {nodeID : UInt64} (hdecode : unmarshalRegisterNodeAddrCmd cmd = .ok (nodeID, addr)) :
    recoverAddr s cmd = .ok (s.putAddr nodeID addr) := by
  rw [recoverAddr, hdecode]
  rfl

theorem recoverShard_ok {s : MetadataStateMachine} {cmd : Bytes}
    {topo : ShardTopology} (hdecode : unmarshalUpdateTopologyCmd cmd = .ok topo) :
    recoverShard s cmd = .ok (s.putShard topo) := by
  rw [recoverShard, hdecode]
  rfl

/-- Recovery reads the registry, then the records. -/
theorem recoverFromSnapshot_lists {source middle : Source}
    {s : MetadataStateMachine}
    (haddrs : recoverList recoverAddr source newMetadataStateMachine =
      (s, .ok middle)) (prior : MetadataStateMachine) :
    recoverFromSnapshot prior source =
      ((recoverList recoverShard middle s).1,
        (recoverList recoverShard middle s).2.map fun _ => ()) := by
  rw [recoverFromSnapshot, haddrs]
  cases hshards : recoverList recoverShard middle s with
  | mk finish outcome => cases outcome <;> simp only [hshards, Except.map]

theorem recoverFromSnapshot_fails {source middle : Source}
    {s : MetadataStateMachine}
    (haddrs : recoverList recoverAddr source newMetadataStateMachine =
      (s, .ok middle))
    (hshards : ∀ finish, (recoverList recoverShard middle s).2 ≠ .ok finish)
    (prior : MetadataStateMachine) :
    (recoverFromSnapshot prior source).2 ≠ .ok () := by
  rw [recoverFromSnapshot_lists haddrs]
  cases hcall : (recoverList recoverShard middle s).2 with
  | ok finish => exact absurd hcall (hshards finish)
  | error fault =>
      intro hok
      cases hok

theorem recoverAddr_command (hformed : WellFormed saved) (s : MetadataStateMachine)
    {entry : UInt64 × Bytes} (hentry : entry ∈ order.grpcAddrs.entries saved.grpcAddrs) :
    recoverAddr s (addrCommand entry) = .ok (s.putAddr entry.1 entry.2) := by
  have hshort := hformed.addrs entry.1 entry.2 (EntryOrder.mem_entries.mp hentry)
  exact recoverAddr_ok (unmarshalRegisterNodeAddrCmd_eq_ok_iff.mpr
    ⟨hshort, [], by rw [addrCommand, List.append_nil]⟩)

theorem recoverShard_command (hformed : WellFormed saved) (s : MetadataStateMachine)
    {entry : UInt64 × ShardTopology}
    (hentry : entry ∈ order.shards.entries saved.topology.shards) :
    recoverShard s (shardCommand order entry) = .ok (s.putShard entry.2) := by
  have hfits := hformed.fits entry.1 entry.2 (EntryOrder.mem_entries.mp hentry)
  exact recoverShard_ok (unmarshalUpdateTopologyCmd_eq_ok_iff.mpr
    ⟨_, hfits.fieldsOf (order.record entry.1), (topology_fieldsOf _ _).symm, [],
      by rw [shardCommand, List.append_nil]⟩)

theorem recoverShard_front (hformed : WellFormed saved) (s : MetadataStateMachine)
    {entry : UInt64 × ShardTopology}
    (hentry : entry ∈ order.shards.entries saved.topology.shards) {count : ℕ}
    (hcount : count < (shardCommand order entry).length)
    (next : MetadataStateMachine) :
    recoverShard s ((shardCommand order entry).take count) ≠ .ok next := by
  have hfits := hformed.fits entry.1 entry.2 (EntryOrder.mem_entries.mp hentry)
  intro hok
  obtain ⟨topo, hdecode, -⟩ := bind_eq_ok_iff.mp hok
  exact unmarshalUpdateTopologyCmd_take (hfits.fieldsOf (order.record entry.1)) hcount
    topo hdecode

theorem length_addrCommand_lt {entry : UInt64 × Bytes} (hshort : ShortAddr entry.2) :
    (addrCommand entry).length < 2 ^ 32 := by
  simp only [ShortAddr] at hshort
  simp only [addrCommand, encodeRegister, encodeAddr, List.length_append,
    List.length_singleton, length_putUint64, length_putUint16]
  omega

/-- The registry is always read back. -/
theorem recoverList_addrs (hformed : WellFormed saved)
    (haddrs : saved.grpcAddrs.size < 2 ^ 32) (rest : Bytes) :
    recoverList recoverAddr
        ⟨counted addrCommand (order.grpcAddrs.entries saved.grpcAddrs) ++ rest, false⟩
        newMetadataStateMachine =
      (⟨⟨∅, 0⟩, saved.grpcAddrs⟩, .ok ⟨rest, false⟩) := by
  have hlist := recoverList_commands addrCommand
    (fun s entry => s.putAddr entry.1 entry.2) recoverAddr
    (by rwa [EntryOrder.length_entries])
    (fun entry hentry => length_addrCommand_lt
      (hformed.addrs entry.1 entry.2 (EntryOrder.mem_entries.mp hentry)))
    (fun s entry hentry => recoverAddr_command order hformed s hentry)
    newMetadataStateMachine rest
  have hmap : commit ∅ ((order.grpcAddrs.entries saved.grpcAddrs).map
      fun entry => .set entry.1 entry.2) = saved.grpcAddrs :=
    commit_set_perm (order.grpcAddrs.perm _)
  rw [hlist, foldl_putAddr]
  simp only [newMetadataStateMachine, hmap]

/-- What recovery yields when every record can be framed: everything but,
possibly, the epoch. -/
theorem recoverFromSnapshot_serialise (hformed : WellFormed saved)
    (haddrs : saved.grpcAddrs.size < 2 ^ 32)
    (hshards : saved.topology.shards.size < 2 ^ 32) (hframed : Framed saved)
    (prior : MetadataStateMachine) :
    recoverFromSnapshot prior ⟨serialise order saved, false⟩ =
      (⟨⟨saved.topology.shards,
          recoveredEpoch (order.shards.entries saved.topology.shards) 0⟩,
        saved.grpcAddrs⟩, .ok ()) := by
  have hloop := recoverList_commands (shardCommand order)
    (fun s entry => s.putShard entry.2) recoverShard
    (by rwa [EntryOrder.length_entries])
    (fun entry hentry => by
      rw [length_shardCommand]
      exact hframed entry.1 entry.2 (EntryOrder.mem_entries.mp hentry))
    (fun s entry hentry => recoverShard_command order hformed s hentry)
    ⟨⟨∅, 0⟩, saved.grpcAddrs⟩ []
  have hfiled : ∀ entry ∈ order.shards.entries saved.topology.shards,
      entry.2.shardID = entry.1 := fun entry hentry =>
    hformed.filed entry.1 entry.2 (EntryOrder.mem_entries.mp hentry)
  have hmap : commit ∅ ((order.shards.entries saved.topology.shards).map
      fun entry => .set entry.1 entry.2) = saved.topology.shards :=
    commit_set_perm (order.shards.perm _)
  rw [List.append_nil, foldl_putShard hfiled] at hloop
  simp only [hmap] at hloop
  rw [serialise,
    recoverFromSnapshot_lists (recoverList_addrs order hformed haddrs _), hloop]
  rfl

/-- A record that cannot be framed makes recovery fail. -/
theorem recoverFromSnapshot_overlong (hformed : WellFormed saved)
    (haddrs : saved.grpcAddrs.size < 2 ^ 32)
    (hshards : saved.topology.shards.size < 2 ^ 32) (hlong : ¬ Framed saved)
    (prior : MetadataStateMachine) :
    (recoverFromSnapshot prior ⟨serialise order saved, false⟩).2 ≠ .ok () := by
  have hcount : (order.shards.entries saved.topology.shards).length < 2 ^ 32 := by
    rwa [EntryOrder.length_entries]
  simp only [Framed, not_forall, not_lt] at hlong
  obtain ⟨id, topo, hstored, hlength⟩ := hlong
  have hlist := recoverList_overlong (shardCommand order)
    (fun s entry => s.putShard entry.2) recoverShard hcount
    (fun s entry hentry => recoverShard_command order hformed s hentry)
    (fun s entry hentry count hcount next =>
      recoverShard_front order hformed s hentry hcount next)
    ⟨(id, topo), EntryOrder.mem_entries.mpr hstored, by
      rw [length_shardCommand]
      exact hlength⟩
    ⟨⟨∅, 0⟩, saved.grpcAddrs⟩ []
  rw [List.append_nil] at hlist
  rw [serialise]
  exact recoverFromSnapshot_fails (recoverList_addrs order hformed haddrs _) hlist
    prior

end Recovery

theorem carried_iff {saved : MetadataStateMachine} (hformed : WellFormed saved)
    (order : SaveOrder) :
    recoveredEpoch (order.shards.entries saved.topology.shards) 0 =
      saved.topology.epoch ↔ Carried saved := by
  have hbound : ∀ entry ∈ order.shards.entries saved.topology.shards,
      entry.2.epoch ≤ saved.topology.epoch := fun entry hentry =>
    hformed.epochs entry.1 entry.2 (EntryOrder.mem_entries.mp hentry)
  have hzero : (0 : UInt64) ≤ saved.topology.epoch :=
    UInt64.le_iff_toNat_le.mpr (Nat.zero_le _)
  rw [recoveredEpoch_eq_iff hbound hzero, Carried, eq_comm]
  simp only [EntryOrder.mem_entries, Prod.exists]

/-- A replica that any sequence of entries produced is restored by its snapshot,
whatever the iteration orders and the prior state of the target, exactly when
its global epoch is still carried by a record it holds and the command of every
record fits its length field. -/
theorem metadata_restored_iff {entries : List Bytes}
    {saved : MetadataStateMachine}
    (hplay : play newMetadataStateMachine entries = .ok saved)
    (haddrs : saved.grpcAddrs.size < 65536)
    (hshards : saved.topology.shards.size < 65536) (order : SaveOrder)
    (prior : MetadataStateMachine) :
    Restores order saved prior ↔ Carried saved ∧ Framed saved := by
  have hformed := wellFormed_of_play hplay
  have haddrsWide : saved.grpcAddrs.size < 2 ^ 32 := by omega
  have hshardsWide : saved.topology.shards.size < 2 ^ 32 := by omega
  constructor
  · rintro ⟨bytes, restored, hsave, hrecover, -, hepoch, -⟩
    rw [saveSnapshot_eq] at hsave
    cases hsave
    have hframed : Framed saved := by
      by_contra hlong
      apply recoverFromSnapshot_overlong order hformed haddrsWide hshardsWide hlong
        prior
      rw [hrecover]
    rw [recoverFromSnapshot_serialise order hformed haddrsWide hshardsWide
      hframed] at hrecover
    cases hrecover
    exact ⟨(carried_iff hformed order).mp hepoch, hframed⟩
  · rintro ⟨hcarried, hframed⟩
    have hrecover := recoverFromSnapshot_serialise order hformed haddrsWide
      hshardsWide hframed prior
    rw [(carried_iff hformed order).mpr hcarried] at hrecover
    refine ⟨_, _, saveSnapshot_eq order saved, hrecover, rfl, rfl, rfl, ?_⟩
    intro further
    obtain ⟨finish, hfinish⟩ := exists_play saved further
    exact ⟨finish, finish, hfinish, hfinish, fun _ => rfl, rfl, rfl⟩

/-- The record of shard 1 without members, as a node with the given local epoch
publishes it. -/
def bareTopology (epoch : UInt64) : ShardTopology :=
  ⟨1, 0, [], 0, epoch, ∅, ∅, ∅, ∅, 0⟩

def bareCommand (epoch : UInt64) : Bytes :=
  (fieldsOf .sorted (bareTopology epoch)).encode

/-- A replica that holds only the record of shard 1. -/
def holding (epoch global : UInt64) : MetadataStateMachine :=
  ⟨⟨(∅ : Contents UInt64 ShardTopology).insert 1 (bareTopology epoch), global⟩, ∅⟩

theorem metadata_restored_iff_risingEpochs :
    play newMetadataStateMachine [bareCommand 3, bareCommand 5] = .ok (holding 5 5) ∧
      Restores .sorted (holding 5 5) newMetadataStateMachine := by
  have hplay : play newMetadataStateMachine [bareCommand 3, bareCommand 5] =
      .ok (holding 5 5) := by decide +kernel
  have hframed : Framed (holding 5 5) := by
    intro id topo hstored
    simp only [holding, Std.ExtTreeMap.getElem?_insert] at hstored
    split at hstored
    · cases hstored
      decide +kernel
    · simp at hstored
  refine ⟨hplay, (metadata_restored_iff hplay (by decide +kernel) (by decide +kernel)
    .sorted newMetadataStateMachine).mpr ⟨.inr ⟨1, bareTopology 5, ?_, rfl⟩, hframed⟩⟩
  decide +kernel

/-- Epoch 5 was applied and then replaced by epoch 3: the replica answers 5, the
one restored from its snapshot answers 3. -/
theorem snapshot_forgets_epoch :
    ∃ saved bytes restored,
      play newMetadataStateMachine [bareCommand 5, bareCommand 3] = .ok saved ∧
        saveSnapshot (fun _ => false) .sorted saved = .ok bytes ∧
        recoverFromSnapshot newMetadataStateMachine ⟨bytes, false⟩ =
          (restored, .ok ()) ∧
        saved.topology.epoch = 5 ∧ restored.topology.epoch = 3 := by
  refine ⟨holding 3 5, serialise .sorted (holding 3 5), holding 3 3, ?_,
    saveSnapshot_eq _ _, ?_, rfl, rfl⟩
  · decide +kernel
  · decide +kernel

end FutureQ.Metadata
