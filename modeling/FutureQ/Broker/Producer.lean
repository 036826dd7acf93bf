import FutureQ.Event.Commands
import FutureQ.Storage.Repository

/-!
# The producer handler

`processBatch` takes one frame of a publish stream.  Both write paths walk over
the messages with `marshalMessages`, which rejects negative delays and ttls.
The Raft path serialises every message into one store command and proposes it;
the standalone path stores every message in one batch and commits it.  The
leader check and the two ways to propose belong to Dragonboat and enter as an
environment.
-/

namespace FutureQ.Producer

open FutureQ.ByteOrder
open FutureQ.GoRuntime
open FutureQ.Storage
open FutureQ.Keys
open FutureQ.Repository
open FutureQ.Commands

/-- Every level other than `NO_ACK` waits for the quorum. -/
inductive AckLevel where
  | quorum
  | noAck
  deriving DecidableEq, Repr

structure Message (Index : Type) where
  topic : String
  payload : Bytes
  delayMs : Int64
  ttlMs : Int64
  indexes : List Index
  deriving DecidableEq, Repr

structure PublishBatch (Index : Type) where
  messages : List (Message Index)
  ackLevel : AckLevel
  deriving DecidableEq, Repr

structure PublishBatchAck where
  success : Bool
  deriving DecidableEq, Repr

structure ProposeError where
  reason : String
  deriving DecidableEq, Repr

inductive PublishError where
  | negativeDelay (delay : Int64) (topic : String) (messageIdx : ℕ)
  | negativeTtl (ttl : Int64) (topic : String) (messageIdx : ℕ)
  | marshalMessage (err : MarshalError)
  | marshalIndex (err : MarshalError)
  | repository (err : RepositoryError)
  | notLeader
  | buildStoreBatch (err : PublishError)
  | marshalCommand (err : CommandError)
  | proposal (err : ProposeError)
  | batchSave
  | noAckNotAllowed
  deriving DecidableEq, Repr

/-- The texts of the handler's errors; those of the repository are passed on. -/
def PublishError.message (repositoryText : RepositoryError → String) :
    PublishError → String
  | .negativeDelay delay topic messageIdx =>
      s!"negative delays are not allowed! delay: {delay}, topic: {topic} message_idx: {messageIdx}"
  | .negativeTtl ttl topic messageIdx =>
      s!"negative ttls are not allowed! ttl: {ttl}, topic: {topic} message_idx: {messageIdx}"
  | .marshalMessage err => "failed to marshal message: " ++ err.reason
  | .marshalIndex err => "failed to marshal index: " ++ err.reason
  | .repository err => repositoryText err
  | .notLeader => "node is not the cluster leader"
  | .buildStoreBatch err =>
      "failed to build store batch: " ++ err.message repositoryText
  | .marshalCommand err => "failed to marshal StoreBatchCmd: " ++ err.message
  | .proposal err => "failed to do raft proposal: " ++ err.reason
  | .batchSave => "failed to save batch"
  | .noAckNotAllowed => "NO_ACK level is not allowed when MinAckLevel is Quorum"

section Marshal

variable {Index σ : Type} (lib : Libraries Index) (bucketSize : TimeBucketSize)

/-- The stored form of a message published at `nowMs`. -/
def storedMessage (nowMs : Int64) (msg : Message Index) : StoredMessage Index where
  topic := msg.topic
  payload := msg.payload
  enqueuedAtUnixMs := nowMs
  delayMs := msg.delayMs
  ttlMs := msg.ttlMs
  indexes := msg.indexes

/-- The loop of `marshalMessages`; `i` is the position of the next message and
`fn` acts on the state of the caller. -/
def marshalMessages (nowMs : Int64)
    (fn : σ → StoredMessage Index → Except PublishError Unit × σ) :
    ℕ → List (Message Index) → σ → Except PublishError Unit × σ
  | _, [], state => (.ok (), state)
  | i, msg :: msgs, state =>
      if msg.delayMs < 0 then
        (.error (.negativeDelay msg.delayMs msg.topic i), state)
      else if msg.ttlMs < 0 then
        (.error (.negativeTtl msg.ttlMs msg.topic i), state)
      else
        match fn state (storedMessage nowMs msg) with
        | (.error err, state) => (.error err, state)
        | (.ok (), state) => marshalMessages nowMs fn (i + 1) msgs state

def raftItem (data : StoredMessage Index) : Except PublishError StoreBatchItem := do
  let dataBytes ← (lib.marshal data).mapError .marshalMessage
  let indexes ← data.indexes.mapM fun idx =>
    (lib.marshalIndex idx).mapError .marshalIndex
  return {
    bucket := bucketSize.bucket (data.enqueuedAtUnixMs + data.delayMs)
    topicHash := lib.topicHash data.topic
    indexes
    msg := dataBytes }

/-- What `processRaftBatch` passes to `marshalMessages`. -/
def appendItem (items : List StoreBatchItem) (data : StoredMessage Index) :
    Except PublishError Unit × List StoreBatchItem :=
  match raftItem lib bucketSize data with
  | .error err => (.error err, items)
  | .ok item => (.ok (), items ++ [item])

/-- What `processStandaloneBatch` passes to `marshalMessages`. -/
def storeNext (faults : Faults) (state : EventRepository × Batch)
    (data : StoredMessage Index) :
    Except PublishError Unit × EventRepository × Batch :=
  match storeWithBatch lib faults state.1 state.2 data with
  | (.error err, repo, batch) => (.error (.repository err), repo, batch)
  | (.ok _, repo, batch) => (.ok (), repo, batch)

end Marshal

/-- What the handler asks of Dragonboat and of the configuration. -/
structure Environment where
  minAckQuorum : Bool
  isLeader : Bool
  propose : Bytes → Except ProposeError Unit
  syncPropose : Bytes → Except ProposeError Unit

section Process

variable {Index : Type} (lib : Libraries Index) (bucketSize : TimeBucketSize)

def processRaftBatch (env : Environment) (batch : PublishBatch Index)
    (nowMs : Int64) : GoResult PublishError Unit :=
  if env.isLeader = false then .error (.error .notLeader)
  else do
    makeSlice storeBatchItemSize 0 batch.messages.length
    match marshalMessages nowMs (appendItem lib bucketSize) 0 batch.messages [] with
    | (.error err, _) => .error (.error (.buildStoreBatch err))
    | (.ok (), items) =>
        match marshalStoreBatchCmd items with
        | .error (.panic reason) => .error (.panic reason)
        | .error (.error err) => .error (.error (.marshalCommand err))
        | .ok cmdBytes =>
            let proposed := match batch.ackLevel with
              | .noAck => env.propose cmdBytes
              | .quorum => env.syncPropose cmdBytes
            match proposed with
            | .error err => .error (.error (.proposal err))
            | .ok () => .ok ()

/-- The standalone path: the outcome, the repository and the database. -/
def processStandaloneBatch (engine : Engine) (faults : Faults)
    (repo : EventRepository) (db : DB) (batch : PublishBatch Index)
    (nowMs : Int64) : Except PublishError Unit × EventRepository × DB :=
  match marshalMessages nowMs (storeNext lib faults) 0 batch.messages
      (repo, newBatch) with
  | (.error err, repo, _) => (.error err, repo, db)
  | (.ok (), repo, pending) =>
      match engine.commit faults db pending with
      | .error _ => (.error .batchSave, repo, db)
      | .ok db => (.ok (), repo, db)

/-- `processBatch` on a node that runs Raft. -/
def processBatch (env : Environment) (batch : PublishBatch Index)
    (nowMs : Int64) : PublishBatchAck × GoResult PublishError Unit :=
  if batch.messages = [] then (⟨false⟩, .ok ())
  else if env.minAckQuorum ∧ batch.ackLevel = .noAck then
    (⟨false⟩, .error (.error .noAckNotAllowed))
  else
    match processRaftBatch lib bucketSize env batch nowMs with
    | .error fault => (⟨false⟩, .error fault)
    | .ok () => (⟨true⟩, .ok ())

end Process

/-! ## What an accepted batch proposes -/

section Accepted

variable {Index : Type} {lib : Libraries Index} {bucketSize : TimeBucketSize}

theorem raftItem_eq_ok_iff {data : StoredMessage Index} {item : StoreBatchItem} :
    raftItem lib bucketSize data = .ok item ↔
      item.bucket = bucketSize.bucket (data.enqueuedAtUnixMs + data.delayMs) ∧
      item.topicHash = lib.topicHash data.topic ∧
      List.Forall₂ (fun idx bytes => lib.marshalIndex idx = .ok bytes)
        data.indexes item.indexes ∧
      lib.marshal data = .ok item.msg := by
  simp only [raftItem, bind_eq_ok_iff, mapM_eq_ok_iff, mapError_eq_ok_iff, pure,
    Except.pure, Except.ok.injEq]
  constructor
  · rintro ⟨bytes, hbytes, indexes, hindexes, rfl⟩
    exact ⟨rfl, rfl, hindexes, hbytes⟩
  · rintro ⟨hbucket, hhash, hindexes, hbytes⟩
    exact ⟨_, hbytes, _, hindexes, by cases item; simp_all⟩

/-- The item that an admitted message becomes. -/
def Becomes (lib : Libraries Index) (bucketSize : TimeBucketSize) (nowMs : Int64)
    (msg : Message Index) (item : StoreBatchItem) : Prop :=
  ¬ msg.delayMs < 0 ∧ ¬ msg.ttlMs < 0 ∧
    raftItem lib bucketSize (storedMessage nowMs msg) = .ok item

theorem marshalMessages_appendItem {nowMs : Int64} {i : ℕ}
    {msgs : List (Message Index)} {items final : List StoreBatchItem} :
    marshalMessages nowMs (appendItem lib bucketSize) i msgs items =
        (.ok (), final) ↔
      ∃ more, final = items ++ more ∧
        List.Forall₂ (Becomes lib bucketSize nowMs) msgs more := by
  induction msgs generalizing i items with
  | nil => simp [marshalMessages, eq_comm]
  | cons msg msgs ih =>
      simp only [marshalMessages, List.forall₂_cons_left_iff, Becomes]
      by_cases hdelay : msg.delayMs < 0
      · simp [hdelay]
      · by_cases httl : msg.ttlMs < 0
        · simp [hdelay, httl]
        · cases hitem : raftItem lib bucketSize (storedMessage nowMs msg) with
          | error err => simp [hdelay, httl, appendItem, hitem]
          | ok item =>
              simp only [hdelay, httl, appendItem, hitem, if_false, ih,
                not_false_eq_true, true_and, Except.ok.injEq]
              constructor
              · rintro ⟨more, rfl, hmore⟩
                exact ⟨item :: more, by simp, item, more, rfl, hmore, rfl⟩
              · rintro ⟨_, rfl, other, more, rfl, hmore, rfl⟩
                exact ⟨more, by simp, hmore⟩

end Accepted

end FutureQ.Producer
