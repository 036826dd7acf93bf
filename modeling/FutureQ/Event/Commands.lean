import FutureQ.Core.Buffer
import FutureQ.Core.ByteOrder

/-!
# Commands of the event state machine

Every Raft log entry of the event shard is one command: a batch of messages to
store or a batch of 24-byte keys to delete.  The encoders fill a buffer of a
pre-computed size and the decoders walk a position over the input, checking it
before each read.  Length fields are narrower than Go's lengths (16 bits for
indexes, 32 bits for messages), and the casts into them are silent.
-/

namespace FutureQ.Commands

open FutureQ.ByteOrder
open FutureQ.GoRuntime
open FutureQ.Buffer

inductive CommandType where
  | storeBatch
  | deleteBatch
  | unknown (tag : UInt8)
  deriving DecidableEq, Repr

def commandType (tag : UInt8) : CommandType :=
  if tag = 0 then .storeBatch
  else if tag = 1 then .deleteBatch
  else .unknown tag

/-- Per-message data of a `StoreBatchCmd`: the routing fields and the already
serialised message. -/
structure StoreBatchItem where
  bucket : UInt64
  topicHash : UInt64
  indexes : List Bytes
  msg : Bytes
  deriving DecidableEq, Repr

inductive CommandError where
  | storeTooShort (length : ℕ)
  | expectedStore (tag : UInt8)
  | truncatedHeader (item : ℕ)
  | truncatedIndexLen (item index : ℕ)
  | truncatedIndexData (item index : ℕ)
  | truncatedValLen (item : ℕ)
  | truncatedValue (item need rest : ℕ)
  | deleteTooShort (length : ℕ)
  | expectedDelete (tag : UInt8)
  | deleteTooShortFor (count : Int64)
  | deleteKeyLength (length : ℕ)
  deriving DecidableEq, Repr

def CommandError.message : CommandError → String
  | .storeTooShort n => s!"raft: StoreBatchCmd too short: {n} bytes"
  | .expectedStore tag => s!"raft: expected StoreBatchCmd (0), got {tag}"
  | .truncatedHeader i => s!"raft: StoreBatchCmd truncated at item {i} header"
  | .truncatedIndexLen i j =>
      s!"raft: StoreBatchCmd truncated at item {i} index {j} len"
  | .truncatedIndexData i j =>
      s!"raft: StoreBatchCmd truncated at item {i} index {j} data"
  | .truncatedValLen i => s!"raft: StoreBatchCmd truncated at item {i} valLen"
  | .truncatedValue i need rest =>
      s!"raft: StoreBatchCmd truncated at item {i} value (need {need}, have {rest})"
  | .deleteTooShort n => s!"raft: DeleteBatchCmd too short: {n} bytes"
  | .expectedDelete tag => s!"raft: expected DeleteBatchCmd (1), got {tag}"
  | .deleteTooShortFor count =>
      s!"raft: DeleteBatchCmd too short for {count} keys"
  | .deleteKeyLength n =>
      s!"raft: DeleteBatchCmd: key must be 24 bytes, got {n}"

/-! ## Encoders -/

def storeBatchSize (items : List StoreBatchItem) : ℕ :=
  items.foldl
    (fun size item =>
      (item.indexes.foldl (fun size idx => size + (2 + idx.length))
        (size + (8 + 8 + 2))) + (4 + item.msg.length))
    (1 + 8)

def writeIndex (cursor : Cursor UInt8) (idx : Bytes) :
    GoResult CommandError (Cursor UInt8) := do
  let cursor ← cursor.put (putUint16 (UInt16.ofNat idx.length))
  cursor.copy idx

def writeItem (cursor : Cursor UInt8) (item : StoreBatchItem) :
    GoResult CommandError (Cursor UInt8) := do
  let cursor ← cursor.put (putUint64 item.bucket)
  let cursor ← cursor.put (putUint64 item.topicHash)
  let cursor ← cursor.put (putUint16 (UInt16.ofNat item.indexes.length))
  let cursor ← item.indexes.foldlM writeIndex cursor
  let cursor ← cursor.put (putUint32 (UInt32.ofNat item.msg.length))
  cursor.copy item.msg

def marshalStoreBatchCmd (items : List StoreBatchItem) :
    GoResult CommandError Bytes := do
  let cursor : Cursor UInt8 := ⟨List.replicate (storeBatchSize items) 0, 0⟩
  let cursor ← cursor.put [0]
  let cursor ← cursor.put (putUint64 (UInt64.ofNat items.length))
  let cursor ← items.foldlM writeItem cursor
  return cursor.out

def writeKey (cursor : Cursor UInt8) (key : Bytes) :
    GoResult CommandError (Cursor UInt8) :=
  if key.length ≠ 24 then .error (.error (.deleteKeyLength key.length))
  else cursor.put key

def marshalDeleteBatchCmd (keys : List Bytes) : GoResult CommandError Bytes := do
  let cursor : Cursor UInt8 := ⟨List.replicate (1 + 8 + keys.length * 24) 0, 0⟩
  let cursor ← cursor.put [1]
  let cursor ← cursor.put (putUint64 (UInt64.ofNat keys.length))
  let cursor ← keys.foldlM writeKey cursor
  return cursor.out

/-! ## Decoders -/

def unmarshalIndex (data : Bytes) (item index pos : ℕ) :
    GoResult CommandError (Bytes × ℕ) := do
  if data.length < pos + 2 then
    throw (.error (.truncatedIndexLen item index))
  let idxLen := (uint16 (← slice data pos (pos + 2))).toNat
  let pos := pos + 2
  if data.length < pos + idxLen then
    throw (.error (.truncatedIndexData item index))
  let idx ← slice data pos (pos + idxLen)
  return (idx, pos + idxLen)

def unmarshalIndexes (data : Bytes) (item : ℕ) :
    ℕ → ℕ → ℕ → GoResult CommandError (List Bytes × ℕ)
  | 0, _, pos => return ([], pos)
  | remaining + 1, index, pos => do
      let (idx, pos) ← unmarshalIndex data item index pos
      let (indexes, pos) ← unmarshalIndexes data item remaining (index + 1) pos
      return (idx :: indexes, pos)

def unmarshalItem (data : Bytes) (item pos : ℕ) :
    GoResult CommandError (StoreBatchItem × ℕ) := do
  if data.length < pos + 8 + 8 + 2 then
    throw (.error (.truncatedHeader item))
  let bucket := uint64 (← slice data pos (pos + 8))
  let pos := pos + 8
  let topicHash := uint64 (← slice data pos (pos + 8))
  let pos := pos + 8
  let numIdx := (uint16 (← slice data pos (pos + 2))).toNat
  let pos := pos + 2
  let (indexes, pos) ← unmarshalIndexes data item numIdx 0 pos
  if data.length < pos + 4 then
    throw (.error (.truncatedValLen item))
  let valLen := (uint32 (← slice data pos (pos + 4))).toNat
  let pos := pos + 4
  if data.length < pos + valLen then
    throw (.error (.truncatedValue item valLen (data.length - pos)))
  let value ← slice data pos (pos + valLen)
  return (⟨bucket, topicHash, indexes, value⟩, pos + valLen)

def unmarshalItems (data : Bytes) :
    ℕ → ℕ → ℕ → GoResult CommandError (List StoreBatchItem)
  | 0, _, _ => return []
  | remaining + 1, item, pos => do
      let (head, pos) ← unmarshalItem data item pos
      let items ← unmarshalItems data remaining (item + 1) pos
      return head :: items

/-- `unsafe.Sizeof(StoreBatchItem{})`: two words and two slice headers. -/
def storeBatchItemSize : ℕ := 64

/-- The size of a slice header. -/
def sliceHeaderSize : ℕ := 24

def unmarshalStoreBatchCmd (data : Bytes) :
    GoResult CommandError (List StoreBatchItem) := do
  if data.length < 1 + 8 then
    throw (.error (.storeTooShort data.length))
  let tag := data.headD 0
  if commandType tag ≠ .storeBatch then
    throw (.error (.expectedStore tag))
  let count := uint64 (← slice data 1 9)
  makeSlice storeBatchItemSize 0 count.toNat
  unmarshalItems data count.toNat 0 9

def readKeys (data : Bytes) : ℕ → ℕ → GoResult CommandError (List Bytes)
  | 0, _ => return []
  | remaining + 1, i => do
      let start := 9 + i * 24
      let key ← slice data start (start + 24)
      let keys ← readKeys data remaining (i + 1)
      return key :: keys

/-- The count is converted to a signed `int` and multiplied there, so the length
check compares with a wrapped product. -/
def unmarshalDeleteBatchCmd (data : Bytes) :
    GoResult CommandError (List Bytes) := do
  if data.length < 1 + 8 then
    throw (.error (.deleteTooShort data.length))
  let tag := data.headD 0
  if commandType tag ≠ .deleteBatch then
    throw (.error (.expectedDelete tag))
  let count := (uint64 (← slice data 1 9)).toInt64
  if (data.length : ℤ) < (9 + count * 24).toInt then
    throw (.error (.deleteTooShortFor count))
  makeSlice sliceHeaderSize count.toInt count.toInt
  readKeys data count.toInt.toNat 0

end FutureQ.Commands
