import FutureQ.Core.GoRuntime
import FutureQ.Storage.Contract
import FutureQ.Storage.Keys

/-!
# The event repository

`EventRepository` owns the monotonic event-ID counter.  A store takes the next
ID, records it under the last-id key, writes the message under its event key
and points every index of the message at that key, all in the caller's batch.
The standalone path serialises the message itself; the Raft path receives the
serialised bytes.  Protobuf and xxhash are third-party code and enter as
parameters.
-/

namespace FutureQ.Repository

open FutureQ.ByteOrder
open FutureQ.GoRuntime
open FutureQ.OrderedStore
open FutureQ.Storage
open FutureQ.Keys

/-- The broker's own copy of a published message. -/
structure StoredMessage (Index : Type) where
  topic : String
  payload : Bytes
  enqueuedAtUnixMs : Int64
  delayMs : Int64
  ttlMs : Int64
  indexes : List Index
  deriving DecidableEq, Repr

structure MarshalError where
  reason : String
  deriving DecidableEq, Repr

/-- Third-party functions the broker calls: xxhash64 and the protobuf codec. -/
structure Libraries (Index : Type) where
  topicHash : String → UInt64
  marshal : StoredMessage Index → Except MarshalError Bytes
  marshalIndex : Index → Except MarshalError Bytes
  unmarshal : Bytes → Option (StoredMessage Index)

/-- Libraries whose serialisation is the payload and the index itself. -/
def plainLibraries : Libraries Bytes where
  topicHash _ := 7
  marshal msg := .ok msg.payload
  marshalIndex idx := .ok idx
  unmarshal _ := none

/-- Libraries that know the messages of a table by the bytes it gives them. -/
def tableLibraries (topicHash : String → UInt64)
    (table : List (Bytes × StoredMessage Bytes)) : Libraries Bytes where
  topicHash
  marshal msg :=
    match table.find? fun entry => entry.2 = msg with
    | some entry => .ok entry.1
    | none => .error ⟨"unknown message"⟩
  marshalIndex idx := .ok idx
  unmarshal bytes := (table.find? fun entry => entry.1 = bytes).map Prod.snd

inductive RepositoryError where
  | storage (err : StorageError)
  | marshalMessage (topic : String) (err : MarshalError)
  | marshalIndex (err : MarshalError)
  deriving DecidableEq, Repr

def eventsLastIDKey : Bytes := "metadata/event-repo/last-id".toUTF8.toList

structure EventRepository where
  lastID : UInt64
  bucketSize : TimeBucketSize

/-- `binary.BigEndian.Uint64`, which panics on fewer than eight bytes. -/
def bigEndianUint64 {ε : Type} (value : Bytes) : GoResult ε UInt64 :=
  if value.length < 8 then .error (.panic .indexOutOfRange)
  else .ok (uint64 value)

/-- A counter record: its value, or `default` when Pebble reports it absent. -/
def readCounter (engine : Engine) (db : DB) (key : Bytes) (absent : UInt64) :
    GoResult StorageError UInt64 :=
  match engine.get db key with
  | .error err =>
      if err = .pebbleErrNotFound then .ok absent else .error (.error err)
  | .ok value => bigEndianUint64 value

def newEventRepository (engine : Engine) (db : DB) (bucketSize : TimeBucketSize) :
    GoResult StorageError EventRepository := do
  let lastID ← readCounter engine db eventsLastIDKey 0
  return ⟨lastID, bucketSize⟩

section Store

variable {Index : Type} (lib : Libraries Index) (faults : Faults)

def onBatch {α : Type} (operation : BatchM StorageError α) :
    BatchM RepositoryError α :=
  fun batch =>
    let (result, batch) := operation batch
    (result.mapError .storage, batch)

def ofMarshal (wrap : MarshalError → RepositoryError)
    (result : Except MarshalError Bytes) : BatchM RepositoryError Bytes :=
  fun batch => (result.mapError wrap, batch)

/-- The batch writes of `StoreWithBatch` once the ID is taken. -/
def putMessage (bucketSize : TimeBucketSize) (nextID : UInt64)
    (msg : StoredMessage Index) : BatchM RepositoryError Bytes := do
  let fireAtMs := msg.enqueuedAtUnixMs + msg.delayMs
  let bucket := bucketSize.bucket fireAtMs
  let key := eventKey bucket (lib.topicHash msg.topic) nextID
  onBatch (set faults eventsLastIDKey (putUint64 nextID))
  let data ← ofMarshal (.marshalMessage msg.topic) (lib.marshal msg)
  onBatch (set faults key data)
  msg.indexes.forM fun idx => do
    let idxBytes ← ofMarshal .marshalIndex (lib.marshalIndex idx)
    onBatch (set faults idxBytes key)
  return key

/-- `StoreWithBatch`: the counter moves even when a later step fails. -/
def storeWithBatch (repo : EventRepository) (batch : Batch)
    (msg : StoredMessage Index) :
    Except RepositoryError Bytes × EventRepository × Batch :=
  let nextID := repo.lastID + 1
  let (result, batch) := putMessage lib faults repo.bucketSize nextID msg batch
  (result, { repo with lastID := nextID }, batch)

/-- The batch writes of `StoreRawWithBatch` once the ID is taken. -/
def putRaw (nextID bucket topicHash : UInt64) (indexes : List Bytes)
    (msg : Bytes) : BatchM StorageError Bytes := do
  let key := eventKey bucket topicHash nextID
  set faults eventsLastIDKey (putUint64 nextID)
  set faults key msg
  indexes.forM fun idx => set faults idx key
  return key

def storeRawWithBatch (repo : EventRepository) (batch : Batch)
    (bucket topicHash : UInt64) (indexes : List Bytes) (msg : Bytes) :
    Except StorageError Bytes × EventRepository × Batch :=
  let nextID := repo.lastID + 1
  let (result, batch) := putRaw faults nextID bucket topicHash indexes msg batch
  (result, { repo with lastID := nextID }, batch)

end Store

/-- The writes of one stored message, in the order both store paths issue
them. -/
def eventOps (nextID : UInt64) (key data : Bytes) (indexes : List Bytes) :
    List Op :=
  .set eventsLastIDKey (putUint64 nextID) :: .set key data ::
    indexes.map fun idx => .set idx key

theorem length_eventsLastIDKey : eventsLastIDKey.length = 27 := by
  decide +kernel

/-- The counter's record cannot be taken for an event. -/
theorem eventsLastIDKey_ne_of_length {key : Bytes} (hlength : key.length = 24) :
    eventsLastIDKey ≠ key := by
  rintro rfl
  rw [length_eventsLastIDKey] at hlength
  omega

theorem eventsLastIDKey_ne_eventKey (bucket topicHash eventID : UInt64) :
    eventsLastIDKey ≠ eventKey bucket topicHash eventID :=
  eventsLastIDKey_ne_of_length (length_eventKey bucket topicHash eventID)

/-- Deleting event keys leaves the counter's record alone. -/
theorem getElem?_lastID_delete {keys : List Bytes}
    (hkeys : ∀ key ∈ keys, key.length = 24) (db : DB) :
    (OrderedStore.commit db (keys.map .delete))[eventsLastIDKey]? =
      db[eventsLastIDKey]? := by
  apply getElem?_commit_of_untouched
  intro op hop heq
  obtain ⟨key, hkey, rfl⟩ := List.mem_map.mp hop
  exact eventsLastIDKey_ne_of_length (hkeys key hkey) heq.symm

theorem eq_ok_of_onBatch {α : Type} {operation : BatchM StorageError α}
    {batch final : Batch} {value : α}
    (hok : onBatch operation batch = (.ok value, final)) :
    operation batch = (.ok value, final) := by
  rw [onBatch] at hok
  rcases hrun : operation batch with ⟨err | result, middle⟩
  · rw [hrun] at hok
    cases hok
  · rw [hrun] at hok
    cases hok
    rfl

theorem eq_ok_of_ofMarshal {wrap : MarshalError → RepositoryError}
    {result : Except MarshalError Bytes} {batch final : Batch} {value : Bytes}
    (hok : ofMarshal wrap result batch = (.ok value, final)) :
    result = .ok value ∧ final = batch := by
  rw [ofMarshal] at hok
  cases result with
  | error err => cases hok
  | ok bytes =>
      cases hok
      exact ⟨rfl, rfl⟩

theorem forM_set_none (key : Bytes) (indexes : List Bytes) (batch : Batch) :
    (indexes.forM fun idx => set .none idx key) batch =
      (.ok (), batch.push (indexes.map fun idx => .set idx key)) := by
  induction indexes generalizing batch with
  | nil => simp only [List.map_nil, push_nil]; rfl
  | cons idx indexes ih =>
      change ((set .none idx key) >>= fun _ =>
        indexes.forM fun idx => set .none idx key) batch = _
      rw [batchM_bind_ok (set_none idx key batch), ih, push_push]
      rfl

/-- Without disk failures a raw store appends exactly the writes of the
message and returns its key. -/
theorem putRaw_none (nextID bucket topicHash : UInt64) (indexes : List Bytes)
    (msg : Bytes) (batch : Batch) :
    putRaw .none nextID bucket topicHash indexes msg batch =
      (.ok (eventKey bucket topicHash nextID),
        batch.push (eventOps nextID (eventKey bucket topicHash nextID) msg
          indexes)) := by
  rw [putRaw, batchM_bind_ok (set_none _ _ _), batchM_bind_ok (set_none _ _ _),
    batchM_bind_ok (forM_set_none _ _ _), push_push, push_push]
  rfl

theorem storeRawWithBatch_none (repo : EventRepository) (batch : Batch)
    (bucket topicHash : UInt64) (indexes : List Bytes) (msg : Bytes) :
    storeRawWithBatch .none repo batch bucket topicHash indexes msg =
      (.ok (eventKey bucket topicHash (repo.lastID + 1)),
        { repo with lastID := repo.lastID + 1 },
        batch.push (eventOps (repo.lastID + 1)
          (eventKey bucket topicHash (repo.lastID + 1)) msg indexes)) := by
  simp only [storeRawWithBatch, putRaw_none]

theorem forM_putIndex_eq_ok {Index : Type} {lib : Libraries Index}
    {faults : Faults} {key : Bytes} {indexes : List Index} {batch final : Batch}
    (hloop : (indexes.forM fun idx => do
      let idxBytes ← ofMarshal .marshalIndex (lib.marshalIndex idx)
      onBatch (set faults idxBytes key)) batch = (.ok (), final)) :
    ∃ bytes, List.Forall₂ (fun idx value => lib.marshalIndex idx = .ok value)
        indexes bytes ∧
      final = batch.push (bytes.map fun idx => .set idx key) := by
  induction indexes generalizing batch with
  | nil =>
      cases hloop
      exact ⟨[], .nil, by simp⟩
  | cons idx indexes ih =>
      obtain ⟨_, middle, hput, hrest⟩ := batchM_bind_eq_ok_iff.mp hloop
      obtain ⟨value, first, hvalue, hset⟩ := batchM_bind_eq_ok_iff.mp hput
      obtain ⟨hmarshal, rfl⟩ := eq_ok_of_ofMarshal hvalue
      obtain ⟨-, rfl⟩ := set_eq_ok_iff.mp (eq_ok_of_onBatch hset)
      obtain ⟨bytes, hbytes, rfl⟩ := ih hrest
      exact ⟨value :: bytes, .cons hmarshal hbytes, by simp [push_push]⟩

/-- A successful store appended exactly the writes of the message, whatever the
disk could have refused. -/
theorem putMessage_eq_ok {Index : Type} {lib : Libraries Index} {faults : Faults}
    {bucketSize : TimeBucketSize} {nextID : UInt64} {msg : StoredMessage Index}
    {batch final : Batch} {key : Bytes}
    (hput : putMessage lib faults bucketSize nextID msg batch = (.ok key, final)) :
    ∃ data indexes, lib.marshal msg = .ok data ∧
      List.Forall₂ (fun idx value => lib.marshalIndex idx = .ok value)
        msg.indexes indexes ∧
      key = eventKey (bucketSize.bucket (msg.enqueuedAtUnixMs + msg.delayMs))
        (lib.topicHash msg.topic) nextID ∧
      final = batch.push (eventOps nextID key data indexes) := by
  obtain ⟨_, first, hrecord, hput⟩ := batchM_bind_eq_ok_iff.mp hput
  obtain ⟨-, rfl⟩ := set_eq_ok_iff.mp (eq_ok_of_onBatch hrecord)
  obtain ⟨data, second, hdata, hput⟩ := batchM_bind_eq_ok_iff.mp hput
  obtain ⟨hmarshal, rfl⟩ := eq_ok_of_ofMarshal hdata
  obtain ⟨_, third, hevent, hput⟩ := batchM_bind_eq_ok_iff.mp hput
  obtain ⟨-, rfl⟩ := set_eq_ok_iff.mp (eq_ok_of_onBatch hevent)
  obtain ⟨_, fourth, hloop, hput⟩ := batchM_bind_eq_ok_iff.mp hput
  obtain ⟨indexes, hindexes, rfl⟩ := forM_putIndex_eq_ok hloop
  cases hput
  exact ⟨data, indexes, hmarshal, hindexes, rfl, by simp [push_push, eventOps]⟩

/-- A raw store adds writes of its message only, whatever the disk refuses. -/
theorem keeps_putRaw {allowed : Op → Prop} (faults : Faults)
    {nextID bucket topicHash : UInt64} {indexes : List Bytes} {msg : Bytes}
    (hops : ∀ op ∈ eventOps nextID (eventKey bucket topicHash nextID) msg indexes,
      allowed op) :
    Keeps allowed (putRaw faults nextID bucket topicHash indexes msg) := by
  rw [eventOps, List.forall_mem_cons, List.forall_mem_cons] at hops
  obtain ⟨hrecord, hevent, hindexes⟩ := hops
  have hloop : Keeps allowed (indexes.forM fun idx =>
      set faults idx (eventKey bucket topicHash nextID)) :=
    keeps_forM fun idx hidx =>
      keeps_attempt faults (hindexes _ (List.mem_map_of_mem hidx))
  exact (keeps_attempt faults hrecord).bind fun _ =>
    (keeps_attempt faults hevent).bind fun _ => hloop.bind fun _ => keeps_pure _

theorem readCounter_of_some {engine : Engine} {db : DB} {key : Bytes}
    {value absent : UInt64} (hrecord : db[key]? = some (putUint64 value)) :
    readCounter engine db key absent = .ok value := by
  rw [readCounter, get_of_some hrecord]
  simp [bigEndianUint64]

theorem readCounter_of_none {db : DB} {key : Bytes} {absent : UInt64}
    (habsent : db[key]? = none) :
    readCounter .pebble db key absent = .ok absent := by
  rw [readCounter, get_pebble_of_none habsent]
  rfl

theorem readCounter_congr {engine : Engine} {left right : DB} {key : Bytes}
    (hagree : left[key]? = right[key]?) (absent : UInt64) :
    readCounter engine left key absent = readCounter engine right key absent := by
  simp only [readCounter, Engine.get, hagree]

end FutureQ.Repository
