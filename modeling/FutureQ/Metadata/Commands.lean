import FutureQ.Core.Buffer
import FutureQ.Core.ByteOrder
import FutureQ.Core.OrderedStore

/-!
# Commands of the metadata state machine

The metadata shard replicates one record per event shard and a registry of
client-facing addresses.  An `UpdateTopologyCmd` carries a whole shard record,
a `RegisterNodeAddrCmd` one address.  Maps are written in the order in which
the runtime iterates over them and are read back by inserting entry after
entry, so one record has many encodings and a repeated node ID is overwritten.
-/

namespace FutureQ.Metadata

open FutureQ.ByteOrder
open FutureQ.GoRuntime
open FutureQ.Buffer
open FutureQ.OrderedStore

abbrev NodeMap := Contents UInt64 Bytes

/-- An order in which the runtime may visit the entries of a map. -/
structure EntryOrder (V : Type) where
  arrange : List (UInt64 × V) → List (UInt64 × V)
  perm : ∀ entries, (arrange entries).Perm entries

def EntryOrder.sorted {V : Type} : EntryOrder V := ⟨id, fun _ => .refl _⟩

inductive CommandType where
  | updateTopology
  | registerNodeAddr
  | unknown (tag : UInt8)
  deriving DecidableEq, Repr

def commandType (tag : UInt8) : CommandType :=
  if tag = 0 then .updateTopology
  else if tag = 1 then .registerNodeAddr
  else .unknown tag

structure ShardTopology where
  shardID : UInt64
  leaderID : UInt64
  leaderAddr : Bytes
  term : UInt64
  epoch : UInt64
  nodes : NodeMap
  nonVotings : NodeMap
  witnesses : NodeMap
  grpcAddrs : NodeMap
  configChangeID : UInt64
  deriving DecidableEq

inductive MapError where
  | truncatedAtCount
  | truncatedAtEntry (i : ℕ)
  | truncatedAtEntryAddr (i : ℕ)
  deriving DecidableEq, Repr

def MapError.message : MapError → String
  | .truncatedAtCount => "truncated at count"
  | .truncatedAtEntry i => s!"truncated at entry {i}"
  | .truncatedAtEntryAddr i => s!"truncated at entry {i} addr"

inductive MapField where
  | nodes
  | nonVotings
  | witnesses
  | grpcAddrs
  deriving DecidableEq, Repr

def MapField.name : MapField → String
  | .nodes => "nodes"
  | .nonVotings => "nonVotings"
  | .witnesses => "witnesses"
  | .grpcAddrs => "grpcAddrs"

inductive CommandError where
  | updateTooShort (length : ℕ)
  | expectedUpdate (tag : UInt8)
  | truncatedLeaderAddr
  | inMap (field : MapField) (err : MapError)
  | registerTooShort (length : ℕ)
  | expectedRegister (tag : UInt8)
  | truncatedAddr
  deriving DecidableEq, Repr

def CommandError.message : CommandError → String
  | .updateTooShort n => s!"metadata: UpdateTopologyCmd too short: {n} bytes"
  | .expectedUpdate tag => s!"metadata: expected UpdateTopologyCmd (0), got {tag}"
  | .truncatedLeaderAddr => "metadata: UpdateTopologyCmd truncated at LeaderAddr"
  | .inMap field err => "metadata: " ++ field.name ++ ": " ++ err.message
  | .registerTooShort n => s!"metadata: RegisterNodeAddrCmd too short: {n} bytes"
  | .expectedRegister tag =>
      s!"metadata: expected RegisterNodeAddrCmd (1), got {tag}"
  | .truncatedAddr => "metadata: RegisterNodeAddrCmd truncated at addr"

/-! ## Encoders -/

/-- The orders in which one encoding visits the maps of a shard record. -/
structure RecordOrder where
  nodes : EntryOrder Bytes
  nonVotings : EntryOrder Bytes
  witnesses : EntryOrder Bytes
  grpcAddrs : EntryOrder Bytes

def RecordOrder.sorted : RecordOrder := ⟨.sorted, .sorted, .sorted, .sorted⟩

def writeEntry (cursor : Cursor UInt8) (entry : UInt64 × Bytes) :
    GoResult CommandError (Cursor UInt8) := do
  let cursor ← cursor.put (putUint64 entry.1)
  let cursor ← cursor.put (putUint16 (UInt16.ofNat entry.2.length))
  cursor.copy entry.2

def marshalNodeMap (order : EntryOrder Bytes) (cursor : Cursor UInt8)
    (m : NodeMap) : GoResult CommandError (Cursor UInt8) := do
  let cursor ← cursor.put (putUint16 (UInt16.ofNat m.size))
  (order.arrange m.toList).foldlM writeEntry cursor

def nodeMapSize (size : ℕ) (m : NodeMap) : ℕ :=
  m.toList.foldl (fun size entry => size + (8 + 2 + entry.2.length)) (size + 2)

/-- The size that `MarshalUpdateTopologyCmd` allocates. -/
def updateTopologySize (t : ShardTopology) : ℕ :=
  [t.nodes, t.nonVotings, t.witnesses, t.grpcAddrs].foldl nodeMapSize
    (1 + 8 * 5 + 2 + t.leaderAddr.length)

def marshalUpdateTopologyCmd (order : RecordOrder) (t : ShardTopology) :
    GoResult CommandError Bytes := do
  let cursor : Cursor UInt8 := ⟨List.replicate (updateTopologySize t) 0, 0⟩
  let cursor ← cursor.put [0]
  let cursor ← cursor.put (putUint64 t.shardID)
  let cursor ← cursor.put (putUint64 t.leaderID)
  let cursor ← cursor.put (putUint64 t.term)
  let cursor ← cursor.put (putUint64 t.epoch)
  let cursor ← cursor.put (putUint64 t.configChangeID)
  let cursor ← cursor.put (putUint16 (UInt16.ofNat t.leaderAddr.length))
  let cursor ← cursor.copy t.leaderAddr
  let cursor ← marshalNodeMap order.nodes cursor t.nodes
  let cursor ← marshalNodeMap order.nonVotings cursor t.nonVotings
  let cursor ← marshalNodeMap order.witnesses cursor t.witnesses
  let cursor ← marshalNodeMap order.grpcAddrs cursor t.grpcAddrs
  return cursor.out

def marshalRegisterNodeAddrCmd (nodeID : UInt64) (grpcAddr : Bytes) :
    GoResult CommandError Bytes := do
  let cursor : Cursor UInt8 :=
    ⟨List.replicate (1 + 8 + 2 + grpcAddr.length) 0, 0⟩
  let cursor ← cursor.put [1]
  let cursor ← cursor.put (putUint64 nodeID)
  let cursor ← cursor.put (putUint16 (UInt16.ofNat grpcAddr.length))
  let cursor ← cursor.copy grpcAddr
  return cursor.out

/-! ## Decoders -/

def unmarshalEntry (data : Bytes) (i pos : ℕ) :
    GoResult MapError ((UInt64 × Bytes) × ℕ) := do
  if data.length < pos + 8 + 2 then
    throw (.error (.truncatedAtEntry i))
  let id := uint64 (← slice data pos (pos + 8))
  let pos := pos + 8
  let addrLen := (uint16 (← slice data pos (pos + 2))).toNat
  let pos := pos + 2
  if data.length < pos + addrLen then
    throw (.error (.truncatedAtEntryAddr i))
  let addr ← slice data pos (pos + addrLen)
  return ((id, addr), pos + addrLen)

def unmarshalEntries (data : Bytes) :
    ℕ → ℕ → ℕ → NodeMap → GoResult MapError (NodeMap × ℕ)
  | 0, _, pos, m => return (m, pos)
  | remaining + 1, i, pos, m => do
      let ((id, addr), pos) ← unmarshalEntry data i pos
      unmarshalEntries data remaining (i + 1) pos (m.insert id addr)

def unmarshalNodeMap (data : Bytes) (pos : ℕ) :
    GoResult MapError (NodeMap × ℕ) := do
  if data.length < pos + 2 then
    throw (.error .truncatedAtCount)
  let count := (uint16 (← slice data pos (pos + 2))).toNat
  unmarshalEntries data count 0 (pos + 2) ∅

/-- `fmt.Errorf("metadata: <field>: %w", err)`. -/
def wrapField (field : MapField) : Fault MapError → Fault CommandError
  | .error err => .error (.inMap field err)
  | .panic reason => .panic reason

def unmarshalField (field : MapField) (data : Bytes) (pos : ℕ) :
    GoResult CommandError (NodeMap × ℕ) :=
  (unmarshalNodeMap data pos).mapError (wrapField field)

def unmarshalUpdateTopologyCmd (data : Bytes) :
    GoResult CommandError ShardTopology := do
  if data.length < 1 + 8 * 5 + 2 then
    throw (.error (.updateTooShort data.length))
  let tag := data.headD 0
  if commandType tag ≠ .updateTopology then
    throw (.error (.expectedUpdate tag))
  let shardID := uint64 (← slice data 1 9)
  let leaderID := uint64 (← slice data 9 17)
  let term := uint64 (← slice data 17 25)
  let epoch := uint64 (← slice data 25 33)
  let configChangeID := uint64 (← slice data 33 41)
  let addrLen := (uint16 (← slice data 41 43)).toNat
  if data.length < 43 + addrLen then
    throw (.error .truncatedLeaderAddr)
  let leaderAddr ← slice data 43 (43 + addrLen)
  let (nodes, pos) ← unmarshalField .nodes data (43 + addrLen)
  let (nonVotings, pos) ← unmarshalField .nonVotings data pos
  let (witnesses, pos) ← unmarshalField .witnesses data pos
  let (grpcAddrs, _) ← unmarshalField .grpcAddrs data pos
  return { shardID, leaderID, leaderAddr, term, epoch, nodes, nonVotings,
           witnesses, grpcAddrs, configChangeID }

def unmarshalRegisterNodeAddrCmd (data : Bytes) :
    GoResult CommandError (UInt64 × Bytes) := do
  if data.length < 1 + 8 + 2 then
    throw (.error (.registerTooShort data.length))
  let tag := data.headD 0
  if commandType tag ≠ .registerNodeAddr then
    throw (.error (.expectedRegister tag))
  let nodeID := uint64 (← slice data 1 9)
  let addrLen := (uint16 (← slice data 9 11)).toNat
  if data.length < 11 + addrLen then
    throw (.error .truncatedAddr)
  let grpcAddr ← slice data 11 (11 + addrLen)
  return (nodeID, grpcAddr)

end FutureQ.Metadata
