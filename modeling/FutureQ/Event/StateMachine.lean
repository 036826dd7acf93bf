import FutureQ.Event.Commands
import FutureQ.Storage.Repository

/-!
# The event state machine

`EventStateMachine` applies the committed entries of the event shard to its
database.  One `Update` call collects the writes of all its entries in a single
batch, adds the applied index, commits, and then reports the deleted keys to
the dispatcher.  The replica's state is split in three: the database, the
repository's in-memory ID counter and the in-memory applied index.
-/

namespace FutureQ.StateMachine

open FutureQ.ByteOrder
open FutureQ.GoRuntime
open FutureQ.Storage
open FutureQ.Keys
open FutureQ.Repository
open FutureQ.Commands

def appliedIndexKey : Bytes := "metadata/raft/applied-index".toUTF8.toList

/-- A committed log entry as Dragonboat hands it over. -/
structure Entry where
  index : UInt64
  cmd : Bytes
  deriving DecidableEq, Repr

structure Result where
  value : UInt64
  deriving DecidableEq, Repr

@[ext]
structure EventStateMachine where
  db : DB
  repo : EventRepository
  lastApplied : UInt64

/-- `Open`: the applied index is read back from the database. -/
def open_ (engine : Engine) (sm : EventStateMachine) :
    GoResult StorageError EventStateMachine := do
  let lastApplied ← readCounter engine sm.db appliedIndexKey 0
  return { sm with lastApplied }

/-- Process start over an existing database: a new repository, a new state
machine, and `Open`. -/
def start (engine : Engine) (bucketSize : TimeBucketSize) (db : DB) :
    GoResult StorageError EventStateMachine := do
  let repo ← newEventRepository engine db bucketSize
  open_ engine ⟨db, repo, 0⟩

/-- What the loop of `applyEntry` over the items of a store command did: the
error that stopped it, the keys the repository returned (the source drops
them), the counter and the batch. -/
structure StoreLoop where
  err : Option StorageError
  stored : List Bytes
  repo : EventRepository
  batch : Batch

def storeItems (faults : Faults) :
    List StoreBatchItem → EventRepository → Batch → StoreLoop
  | [], repo, batch => ⟨none, [], repo, batch⟩
  | item :: items, repo, batch =>
      match storeRawWithBatch faults repo batch item.bucket item.topicHash
          item.indexes item.msg with
      | (.error err, repo, batch) => ⟨some err, [], repo, batch⟩
      | (.ok key, repo, batch) =>
          let rest := storeItems faults items repo batch
          { rest with stored := key :: rest.stored }

/-- The loop over the keys of a delete command, which skips failed deletes. -/
def deleteKeys (faults : Faults) : List Bytes → Batch → List Bytes × Batch
  | [], batch => ([], batch)
  | key :: keys, batch =>
      match delete faults key batch with
      | (.error _, batch) => deleteKeys faults keys batch
      | (.ok (), batch) =>
          let (deleted, batch) := deleteKeys faults keys batch
          (key :: deleted, batch)

/-- The effect of one entry on the repository and the shared batch. -/
structure Applied where
  repo : EventRepository
  batch : Batch
  result : Result
  deleted : List Bytes
  stored : List Bytes

/-- `applyEntry`.  Errors of the decoders and of the repository are logged and
turned into the result 0; only a panic escapes. -/
def applyEntry (faults : Faults) (repo : EventRepository) (batch : Batch)
    (cmd : Bytes) : Except Panic Applied :=
  match cmd with
  | [] => .ok ⟨repo, batch, ⟨0⟩, [], []⟩
  | tag :: _ =>
      match commandType tag with
      | .storeBatch =>
          match unmarshalStoreBatchCmd cmd with
          | .error (.panic reason) => .error reason
          | .error (.error _) => .ok ⟨repo, batch, ⟨0⟩, [], []⟩
          | .ok items =>
              let loop := storeItems faults items repo batch
              match loop.err with
              | some _ => .ok ⟨loop.repo, loop.batch, ⟨0⟩, [], loop.stored⟩
              | none =>
                  .ok ⟨loop.repo, loop.batch, ⟨UInt64.ofNat items.length⟩, [],
                    loop.stored⟩
      | .deleteBatch =>
          match unmarshalDeleteBatchCmd cmd with
          | .error (.panic reason) => .error reason
          | .error (.error _) => .ok ⟨repo, batch, ⟨0⟩, [], []⟩
          | .ok keys =>
              let (deleted, batch) := deleteKeys faults keys batch
              .ok ⟨repo, batch, ⟨UInt64.ofNat deleted.length⟩, deleted, []⟩
      | .unknown _ => .ok ⟨repo, batch, ⟨0⟩, [], []⟩

/-- The variables of the loop of `Update`. -/
structure Progress where
  repo : EventRepository
  batch : Batch
  lastApplied : UInt64
  results : List Result
  deleted : List Bytes
  stored : List Bytes

def applyNext (faults : Faults) (progress : Progress) (entry : Entry) :
    Except Panic Progress := do
  let applied ← applyEntry faults progress.repo progress.batch entry.cmd
  return {
    repo := applied.repo
    batch := applied.batch
    lastApplied := entry.index
    results := progress.results ++ [applied.result]
    deleted := progress.deleted ++ applied.deleted
    stored := progress.stored ++ applied.stored }

/-- What an `Update` call leaves behind and reports: the replica, the results of
its entries or the error, the keys passed to `OnDeleteKeys` (empty when the
callback is not made) and the keys of the committed stores. -/
structure Updated where
  sm : EventStateMachine
  outcome : Except StorageError (List Result)
  deleted : List Bytes
  stored : List Bytes

def update (engine : Engine) (faults : Faults) (sm : EventStateMachine)
    (entries : List Entry) : Except Panic Updated := do
  let progress ← entries.foldlM (applyNext faults)
    ⟨sm.repo, newBatch, sm.lastApplied, [], [], []⟩
  let failed (err : StorageError) : Updated :=
    ⟨⟨sm.db, progress.repo, progress.lastApplied⟩, .error err, [], []⟩
  match set faults appliedIndexKey (putUint64 progress.lastApplied)
      progress.batch with
  | (.error err, _) => return failed err
  | (.ok (), batch) =>
      match engine.commit faults sm.db batch with
      | .error err => return failed err
      | .ok db =>
          return ⟨⟨db, progress.repo, progress.lastApplied⟩,
            .ok progress.results, progress.deleted, progress.stored⟩

theorem length_appliedIndexKey : appliedIndexKey.length = 27 := by
  decide +kernel

theorem appliedIndexKey_ne_eventsLastIDKey :
    appliedIndexKey ≠ eventsLastIDKey := by
  decide +kernel

/-- The applied index cannot be taken for an event. -/
theorem appliedIndexKey_ne_of_length {key : Bytes} (hlength : key.length = 24) :
    appliedIndexKey ≠ key := by
  rintro rfl
  rw [length_appliedIndexKey] at hlength
  omega

theorem appliedIndexKey_ne_eventKey (bucket topicHash eventID : UInt64) :
    appliedIndexKey ≠ eventKey bucket topicHash eventID :=
  appliedIndexKey_ne_of_length (length_eventKey bucket topicHash eventID)

theorem admits_appliedIndex (engine : Engine) (value : Bytes) :
    engine.admits (.set appliedIndexKey value) = .ok () := by
  cases engine with
  | pebble => rfl
  | bolt =>
      rw [Engine.admits, if_neg (by decide +kernel),
        if_neg (by rw [length_appliedIndexKey]; omega)]

end FutureQ.StateMachine
