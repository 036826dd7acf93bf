import FutureQ.Broker.WritePaths
import FutureQ.Event.Freshness

/-!
# A publish batch is stored whole or not at all

The handler validates its messages while it stores them: when one fails, the
messages before it have taken IDs and filled the batch, and the counter record of
the failing one is in the batch too.  Nothing of it survives because the batch is
dropped.  Only the counter in memory keeps what was taken, so later batches
continue above it, and as long as the counter does not come round their IDs are
above every ID in the database.
-/

namespace FutureQ.AllOrNothing

open FutureQ.ByteOrder
open FutureQ.GoRuntime
open FutureQ.OrderedStore
open FutureQ.Storage
open FutureQ.Keys
open FutureQ.Repository
open FutureQ.Commands
open FutureQ.Journal
open FutureQ.Replica
open FutureQ.Freshness
open FutureQ.Producer
open FutureQ.WritePaths

/-- What a standalone broker keeps between two batches. -/
structure Broker where
  repo : EventRepository
  db : DB

/-- A batch, the clock when it arrives and what the disk does meanwhile. -/
structure Publish (Index : Type) where
  batch : PublishBatch Index
  nowMs : Int64
  faults : Faults

section Publishing

variable {Index : Type} (lib : Libraries Index) (engine : Engine)

def publish (broker : Broker) (request : Publish Index) :
    Except PublishError Unit × Broker :=
  let result := processStandaloneBatch lib engine request.faults broker.repo
    broker.db request.batch request.nowMs
  (result.1, ⟨result.2.1, result.2.2⟩)

/-- Batches processed one after another, whatever becomes of each. -/
def publishAll (broker : Broker) (requests : List (Publish Index)) : Broker :=
  requests.foldl (fun broker request => (publish lib engine broker request).2) broker

def messageCount (requests : List (Publish Index)) : ℕ :=
  (requests.map fun request => request.batch.messages.length).sum

/-- Some message has a negative delay or ttl, or it or one of its indexes does not
marshal. -/
def Malformed (request : Publish Index) : Prop :=
  ∃ msg ∈ request.batch.messages, msg.delayMs < 0 ∨ msg.ttlMs < 0 ∨
    (∃ err, lib.marshal (storedMessage request.nowMs msg) = .error err) ∨
    ∃ idx ∈ msg.indexes, ∃ err, lib.marshalIndex idx = .error err

/-- The loop comes to its end and the commit is refused. -/
def CommitFails (broker : Broker) (request : Publish Index) : Prop :=
  ∃ repo pending err,
    marshalMessages request.nowMs (storeNext lib request.faults) 0
      request.batch.messages (broker.repo, newBatch) = (.ok (), repo, pending) ∧
    engine.commit request.faults broker.db pending = .error err

/-- No index of the batch can be taken for an event key or for metadata. -/
def ForeignIndexes (request : Publish Index) : Prop :=
  ∀ msg ∈ request.batch.messages, ∀ idx ∈ msg.indexes, ∀ bytes,
    lib.marshalIndex idx = .ok bytes → Foreign bytes

/-- What `processRaftBatch` does before it proposes: the command it would
propose. -/
def raftCommand (bucketSize : TimeBucketSize) (isLeader : Bool)
    (batch : PublishBatch Index) (nowMs : Int64) : GoResult PublishError Bytes :=
  if isLeader = false then .error (.error .notLeader)
  else do
    makeSlice storeBatchItemSize 0 batch.messages.length
    match marshalMessages nowMs (appendItem lib bucketSize) 0 batch.messages [] with
    | (.error err, _) => .error (.error (.buildStoreBatch err))
    | (.ok (), items) =>
        match marshalStoreBatchCmd items with
        | .error (.panic reason) => .error (.panic reason)
        | .error (.error err) => .error (.error (.marshalCommand err))
        | .ok cmdBytes => .ok cmdBytes

/-- The proposal at the end of `processRaftBatch`. -/
def proposeCommand (env : Environment) (ackLevel : AckLevel) (cmdBytes : Bytes) :
    GoResult PublishError Unit :=
  let proposed := match ackLevel with
    | .noAck => env.propose cmdBytes
    | .quorum => env.syncPropose cmdBytes
  match proposed with
  | .error err => .error (.error (.proposal err))
  | .ok () => .ok ()

end Publishing

/-- The counter is at least every event ID in the database. -/
def Covers (broker : Broker) : Prop :=
  ∀ key ∈ broker.db, key.length = 24 → eventIDOf key ≤ broker.repo.lastID

/-- The batch became `items`, and these are what the database gained: one event
key per item in the order of the batch, with IDs above all that were there. -/
structure Added (before after : Broker) (items : List StoreBatchItem) : Prop where
  stored : ∀ earlier item later, items = earlier ++ item :: later →
    after.db[eventKey item.bucket item.topicHash
      (advance before.repo.lastID (earlier.length + 1))]? = some item.msg
  pointed : ∀ earlier item later, items = earlier ++ item :: later →
    ∀ idx ∈ item.indexes, (∀ other ∈ later, idx ∉ other.indexes) →
      after.db[idx]? = some (eventKey item.bucket item.topicHash
        (advance before.repo.lastID (earlier.length + 1)))
  counted : items ≠ [] → after.db[eventsLastIDKey]? =
    some (putUint64 (advance before.repo.lastID items.length))
  increasing : ((storeKeys before.repo.lastID items).map eventIDOf).Pairwise (· < ·)
  larger : ∀ key ∈ storeKeys before.repo.lastID items, ∀ old ∈ before.db,
    old.length = 24 → eventIDOf old < eventIDOf key
  noOtherEvent : ∀ key, key.length = 24 → key ∉ storeKeys before.repo.lastID items →
    after.db[key]? = before.db[key]?
  noOtherRecord : ∀ key, key.length ≠ 24 → key ≠ eventsLastIDKey →
    (∀ item ∈ items, key ∉ item.indexes) → after.db[key]? = before.db[key]?

variable {Index : Type} {lib : Libraries Index} {engine : Engine}

/-! ## Refusals -/

theorem not_becomes_of_malformed {request : Publish Index}
    (hmalformed : Malformed lib request) (bucketSize : TimeBucketSize)
    (items : List StoreBatchItem) :
    ¬ List.Forall₂ (Becomes lib bucketSize request.nowMs) request.batch.messages
      items := by
  intro hitems
  obtain ⟨msg, hmsg, hwrong⟩ := hmalformed
  obtain ⟨item, -, hdelay, httl, hraft⟩ := exists_mem_of_forall₂ hitems.flip hmsg
  obtain ⟨-, -, hindexes, hdata⟩ := raftItem_eq_ok_iff.mp hraft
  rcases hwrong with hneg | hneg | ⟨err, herr⟩ | ⟨idx, hidx, err, herr⟩
  · exact hdelay hneg
  · exact httl hneg
  · rw [hdata] at herr
    cases herr
  · obtain ⟨bytes, -, hbytes⟩ := exists_mem_of_forall₂ hindexes.flip hidx
    rw [hbytes] at herr
    cases herr

theorem processRaftBatch_eq (bucketSize : TimeBucketSize) (env : Environment)
    (batch : PublishBatch Index) (nowMs : Int64) :
    processRaftBatch lib bucketSize env batch nowMs =
      raftCommand lib bucketSize env.isLeader batch nowMs >>=
        proposeCommand env batch.ackLevel := by
  rw [processRaftBatch, raftCommand]
  split_ifs
  · rfl
  · cases makeSlice storeBatchItemSize 0 batch.messages.length with
    | error fault => rfl
    | ok _ =>
        simp only [bind, Except.bind]
        rcases marshalMessages nowMs (appendItem lib bucketSize) 0 batch.messages []
          with ⟨err | _, items⟩
        · rfl
        · simp only
          rcases marshalStoreBatchCmd items with (err | reason) | cmdBytes <;> rfl

/-- A malformed batch never gets as far as a command. -/
theorem raftCommand_of_malformed {request : Publish Index}
    (hmalformed : Malformed lib request) (bucketSize : TimeBucketSize)
    (isLeader : Bool) :
    ∃ fault, raftCommand lib bucketSize isLeader request.batch request.nowMs =
      .error fault := by
  rw [raftCommand]
  split_ifs
  · exact ⟨_, rfl⟩
  · cases makeSlice storeBatchItemSize 0 request.batch.messages.length with
    | error fault => exact ⟨fault, rfl⟩
    | ok _ =>
        rcases hloop : marshalMessages request.nowMs (appendItem lib bucketSize) 0
          request.batch.messages [] with ⟨err | _, items⟩
        · exact ⟨_, rfl⟩
        · obtain ⟨more, -, hmore⟩ := marshalMessages_appendItem.mp hloop
          exact absurd hmore (not_becomes_of_malformed hmalformed bucketSize more)

/-- What one publish can do. -/
theorem publish_cases (lib : Libraries Index) (engine : Engine) (broker : Broker)
    (request : Publish Index) :
    (∃ err, ∃ count ≤ request.batch.messages.length,
      publish lib engine broker request = (.error err,
        ⟨{ broker.repo with lastID := advance broker.repo.lastID count },
          broker.db⟩)) ∨
    ∃ items, List.Forall₂ (Becomes lib broker.repo.bucketSize request.nowMs)
        request.batch.messages items ∧
      publish lib engine broker request = (.ok (),
        ⟨{ broker.repo with lastID := advance broker.repo.lastID items.length },
          commit broker.db (storeOps broker.repo.lastID items)⟩) := by
  rw [publish]
  rcases hprocess : processStandaloneBatch lib engine request.faults broker.repo
    broker.db request.batch request.nowMs with ⟨outcome, repo, db⟩
  rcases processStandaloneBatch_cases hprocess with
    ⟨err, rfl, rfl, count, hcount, rfl⟩ | ⟨rfl, items, hitems, rfl, rfl⟩
  · exact .inl ⟨err, count, hcount, rfl⟩
  · exact .inr ⟨items, hitems, rfl⟩

theorem publish_of_malformed {request : Publish Index}
    (hmalformed : Malformed lib request) (engine : Engine) (broker : Broker) :
    ∃ err, (publish lib engine broker request).1 = .error err := by
  rcases publish_cases lib engine broker request with
    ⟨err, count, -, hpublish⟩ | ⟨items, hitems, -⟩
  · exact ⟨err, by rw [hpublish]⟩
  · exact absurd hitems (not_becomes_of_malformed hmalformed _ items)

theorem publish_of_commitFails {broker : Broker} {request : Publish Index}
    (hfails : CommitFails lib engine broker request) :
    (publish lib engine broker request).1 = .error .batchSave := by
  obtain ⟨repo, pending, err, hloop, hcommit⟩ := hfails
  simp only [publish, processStandaloneBatch, hloop, hcommit]

/-! ## What an accepted batch adds -/

section Commit

variable {items : List StoreBatchItem} {lastID : UInt64}

/-- Foreign indexes leave the event keys and the counter record alone. -/
theorem untouched_of_foreign
    (hforeign : ∀ item ∈ items, ∀ idx ∈ item.indexes, Foreign idx) {key : Bytes}
    (hlength : key.length = 24) (hkey : key ∉ storeKeys lastID items) (db : DB) :
    (commit db (storeOps lastID items))[key]? = db[key]? := by
  apply getElem?_commit_of_untouched
  intro op hop heq
  rcases key_of_mem_storeOps hop with hcounter | hevent | ⟨item, hitem, hidx⟩
  · exact eventsLastIDKey_ne_of_length hlength (hcounter.symm.trans heq)
  · exact hkey (heq ▸ hevent)
  · exact (hforeign item hitem op.key hidx).1 (heq ▸ hlength)

theorem untouched_of_unindexed {key : Bytes} (hlength : key.length ≠ 24)
    (hkey : key ≠ eventsLastIDKey) (hunindexed : ∀ item ∈ items, key ∉ item.indexes)
    (db : DB) : (commit db (storeOps lastID items))[key]? = db[key]? := by
  apply getElem?_commit_of_untouched
  rintro op hop rfl
  rcases key_of_mem_storeOps hop with hcounter | hevent | ⟨item, hitem, hidx⟩
  · exact hkey hcounter
  · exact hlength (length_of_mem_storeKeys hevent)
  · exact hunindexed item hitem hidx

/-- An index points at the last item of the batch that lists it. -/
theorem getElem?_index_commit {earlier later : List StoreBatchItem}
    {item : StoreBatchItem} {idx : Bytes} (hidx : idx ∈ item.indexes)
    (hforeign : Foreign idx) (hlast : ∀ other ∈ later, idx ∉ other.indexes)
    (db : DB) :
    (commit db (storeOps lastID (earlier ++ item :: later)))[idx]? =
      some (eventKey item.bucket item.topicHash
        (advance lastID (earlier.length + 1))) := by
  have hnext : advance lastID earlier.length + 1 =
      advance lastID (earlier.length + 1) := by
    rw [advance_add, advance_one]
  rw [storeOps_append, commit_append, storeOps, commit_append, hnext,
    untouched_of_unindexed hforeign.1 hforeign.2.1 hlast]
  apply getElem?_commit_of_writes
  · simp [eventOps, hidx]
  · intro op hop hkey
    rcases List.mem_cons.mp hop with rfl | hop
    · exact absurd hkey.symm hforeign.2.1
    · rcases List.mem_cons.mp hop with rfl | hop
      · exact absurd (hkey ▸ length_eventKey _ _ _) hforeign.1
      · obtain ⟨other, -, rfl⟩ := List.mem_map.mp hop
        obtain rfl : other = idx := hkey
        rfl

/-- The counter record is that of the last item. -/
theorem getElem?_counter_commit (hsome : items ≠ [])
    (hforeign : ∀ item ∈ items, ∀ idx ∈ item.indexes, Foreign idx) (db : DB) :
    (commit db (storeOps lastID items))[eventsLastIDKey]? =
      some (putUint64 (advance lastID items.length)) := by
  obtain ⟨earlier, item, rfl⟩ := (List.eq_nil_or_concat' items).resolve_left hsome
  rw [storeOps_append, commit_append, storeOps, storeOps, List.append_nil,
    List.length_append, List.length_singleton, advance_add, advance_one]
  apply getElem?_commit_of_writes
  · simp [eventOps]
  · intro op hop hkey
    rcases List.mem_cons.mp hop with rfl | hop
    · rfl
    · rcases List.mem_cons.mp hop with rfl | hop
      · exact absurd hkey.symm (eventsLastIDKey_ne_eventKey _ _ _)
      · obtain ⟨idx, hidx, rfl⟩ := List.mem_map.mp hop
        exact absurd hkey (hforeign item (by simp) idx hidx).2.1

end Commit

/-! ## The counter stays above the database -/

theorem Covers.lt_of_mem_storeKeys {broker : Broker} (hcovers : Covers broker)
    {items : List StoreBatchItem}
    (hroom : broker.repo.lastID.toNat + items.length < 2 ^ 64) {key old : Bytes}
    (hkey : key ∈ storeKeys broker.repo.lastID items) (hold : old ∈ broker.db)
    (hlength : old.length = 24) : eventIDOf old < eventIDOf key := by
  obtain ⟨index, hindex, hid⟩ := (numberedFrom_storeKeys _ _).exists_index hkey
  rw [length_storeKeys] at hindex
  have hle := UInt64.le_iff_toNat_le.mp (hcovers old hold hlength)
  rw [hid, UInt64.lt_iff_toNat_lt, toNat_advance (by omega)]
  omega

theorem le_advance {lastID : UInt64} {count : ℕ}
    (hroom : lastID.toNat + count < 2 ^ 64) : lastID ≤ advance lastID count := by
  rw [UInt64.le_iff_toNat_le, toNat_advance hroom]
  omega

/-- The items of an admitted batch carry foreign indexes only. -/
theorem foreign_of_becomes {request : Publish Index} {bucketSize : TimeBucketSize}
    {items : List StoreBatchItem} (hforeign : ForeignIndexes lib request)
    (hitems : List.Forall₂ (Becomes lib bucketSize request.nowMs)
      request.batch.messages items) :
    ∀ item ∈ items, ∀ idx ∈ item.indexes, Foreign idx := by
  intro item hitem bytes hbytes
  obtain ⟨msg, hmsg, -, -, hraft⟩ := exists_mem_of_forall₂ hitems hitem
  obtain ⟨-, -, hindexes, -⟩ := raftItem_eq_ok_iff.mp hraft
  obtain ⟨idx, hidx, hmarshal⟩ := exists_mem_of_forall₂ hindexes hbytes
  exact hforeign msg hmsg idx hidx bytes hmarshal

/-- One publish, accepted or not, keeps the counter above the database. -/
theorem Covers.publish {broker : Broker} (hcovers : Covers broker)
    {request : Publish Index} (hforeign : ForeignIndexes lib request)
    (hroom : broker.repo.lastID.toNat + request.batch.messages.length < 2 ^ 64)
    (engine : Engine) :
    Covers (publish lib engine broker request).2 ∧
      (publish lib engine broker request).2.repo.lastID.toNat ≤
        broker.repo.lastID.toNat + request.batch.messages.length := by
  rcases publish_cases lib engine broker request with
    ⟨err, count, hcount, hpublish⟩ | ⟨items, hitems, hpublish⟩
  · rw [hpublish]
    refine ⟨?_, ?_⟩
    · intro key hkey hlength
      exact UInt64.le_trans (hcovers key hkey hlength) (le_advance (by omega))
    · simp only
      rw [toNat_advance (by omega)]
      omega
  · rw [hpublish, hitems.length_eq]
    rw [hitems.length_eq] at hroom
    refine ⟨?_, (toNat_advance hroom).le⟩
    intro key hkey hlength
    by_cases hnew : key ∈ storeKeys broker.repo.lastID items
    · obtain ⟨index, hindex, hid⟩ := (numberedFrom_storeKeys _ _).exists_index hnew
      rw [length_storeKeys] at hindex
      rw [hid, UInt64.le_iff_toNat_le, toNat_advance (by omega), toNat_advance hroom]
      omega
    · have hsame := untouched_of_foreign (foreign_of_becomes hforeign hitems) hlength
        hnew broker.db
      refine UInt64.le_trans (hcovers key ?_ hlength) (le_advance hroom)
      rw [Std.ExtTreeMap.mem_iff_isSome_getElem?] at hkey ⊢
      rwa [← hsame]

theorem Covers.publishAll {broker : Broker} (hcovers : Covers broker)
    {requests : List (Publish Index)}
    (hforeign : ∀ request ∈ requests, ForeignIndexes lib request)
    (hroom : broker.repo.lastID.toNat + messageCount requests < 2 ^ 64)
    (engine : Engine) :
    Covers (publishAll lib engine broker requests) ∧
      (publishAll lib engine broker requests).repo.lastID.toNat ≤
        broker.repo.lastID.toNat + messageCount requests := by
  induction requests generalizing broker with
  | nil => exact ⟨hcovers, Nat.le_add_right _ _⟩
  | cons request requests ih =>
      have hcount : messageCount (request :: requests) =
          request.batch.messages.length + messageCount requests := by
        simp [messageCount]
      rw [hcount] at hroom ⊢
      obtain ⟨hhead, htail⟩ := List.forall_mem_cons.mp hforeign
      obtain ⟨hnext, hmoved⟩ := hcovers.publish hhead (by omega) engine
      obtain ⟨hfinish, hlast⟩ := ih hnext htail (by omega)
      refine ⟨hfinish, hlast.trans ?_⟩
      omega

/-- While the counter does not come round, an accepted batch adds its messages and
nothing else. -/
theorem Covers.added {broker : Broker} (hcovers : Covers broker)
    {items : List StoreBatchItem}
    (hforeign : ∀ item ∈ items, ∀ idx ∈ item.indexes, Foreign idx)
    (hroom : broker.repo.lastID.toNat + items.length < 2 ^ 64)
    {after : Broker}
    (hafter : after.db = commit broker.db (storeOps broker.repo.lastID items)) :
    Added broker after items where
  stored earlier item later hsplit := by
    subst hsplit
    rw [hafter]
    apply getElem?_commit_storeOps
    · intro other hother idx hidx heq
      refine (hforeign other (List.mem_append_right _ hother) idx hidx).1 ?_
      rw [heq, length_eventKey]
    · rw [List.length_append, List.length_cons] at hroom
      omega
  pointed earlier item later hsplit idx hidx hlast := by
    subst hsplit
    rw [hafter]
    exact getElem?_index_commit hidx (hforeign item (by simp) idx hidx) hlast _
  counted hsome := by
    rw [hafter]
    exact getElem?_counter_commit hsome hforeign _
  increasing :=
    (numberedFrom_storeKeys _ _).pairwise_lt (by rwa [length_storeKeys])
  larger _ hkey _ hold hlength := hcovers.lt_of_mem_storeKeys hroom hkey hold hlength
  noOtherEvent key hlength hkey := by
    rw [hafter]
    exact untouched_of_foreign hforeign hlength hkey _
  noOtherRecord key hlength hkey hunindexed := by
    rw [hafter]
    exact untouched_of_unindexed hlength hkey hunindexed _

/-! ## The result -/

/-- Whatever batches came before, a batch with a message that is refused, or whose
commit fails, is answered with an error and leaves the database as it was, and in
Raft mode the handler has nothing to propose; an accepted batch adds exactly its
messages, in order and above every ID in the database, unless the counter comes
round. -/
theorem publishing_is_all_or_nothing (lib : Libraries Index) (engine : Engine)
    {start : Broker} (hcovers : Covers start) (earlier : List (Publish Index))
    (request : Publish Index)
    (hearlier : ∀ request ∈ earlier, ForeignIndexes lib request)
    (hforeign : ForeignIndexes lib request) :
    let broker := publishAll lib engine start earlier
    let after := publish lib engine broker request
    (Malformed lib request ∨ CommitFails lib engine broker request →
      ∃ err, after.1 = .error err) ∧
    (∀ err, after.1 = .error err → after.2.db = broker.db) ∧
    (Malformed lib request → ∀ bucketSize env, ∃ fault,
      raftCommand lib bucketSize env.isLeader request.batch request.nowMs =
        .error fault ∧
      processRaftBatch lib bucketSize env request.batch request.nowMs =
        .error fault) ∧
    (start.repo.lastID.toNat + messageCount (earlier ++ [request]) < 2 ^ 64 →
      after.1 = .ok () →
      ∃ items, List.Forall₂ (Becomes lib broker.repo.bucketSize request.nowMs)
          request.batch.messages items ∧
        Added broker after.2 items) := by
  intro broker after
  refine ⟨?_, ?_, ?_, ?_⟩
  · rintro (hmalformed | hfails)
    · exact publish_of_malformed hmalformed engine broker
    · exact ⟨_, publish_of_commitFails hfails⟩
  · intro err herr
    rcases publish_cases lib engine broker request with
      ⟨_, count, -, hpublish⟩ | ⟨items, -, hpublish⟩
    · simp only [after, hpublish]
    · simp only [after, hpublish, reduceCtorEq] at herr
  · intro hmalformed bucketSize env
    obtain ⟨fault, hfault⟩ :=
      raftCommand_of_malformed hmalformed bucketSize env.isLeader
    refine ⟨fault, hfault, ?_⟩
    rw [processRaftBatch_eq, hfault]
    rfl
  · intro hroom hok
    have hcount : messageCount (earlier ++ [request]) =
        messageCount earlier + request.batch.messages.length := by
      simp [messageCount]
    rw [hcount] at hroom
    obtain ⟨hbroker, hmoved⟩ := hcovers.publishAll hearlier (by omega) engine
    rcases publish_cases lib engine broker request with
      ⟨_, count, -, hpublish⟩ | ⟨items, hitems, hpublish⟩
    · simp only [after, hpublish, reduceCtorEq] at hok
    · refine ⟨items, hitems, hbroker.added (foreign_of_becomes hforeign hitems) ?_ ?_⟩
      · have hlength := hitems.length_eq
        omega
      · simp only [after, hpublish]
        rfl

theorem covers_singleton {lastID eventID : UInt64} (hle : eventID ≤ lastID)
    (bucketSize : TimeBucketSize) (bucket topicHash : UInt64) (value : Bytes) :
    Covers ⟨⟨lastID, bucketSize⟩,
      (∅ : DB).insert (eventKey bucket topicHash eventID) value⟩ := by
  intro key hkey _
  have hsame : compare (eventKey bucket topicHash eventID) key = .eq := by
    simpa [Std.ExtTreeMap.mem_insert] using hkey
  rw [← Std.LawfulEqCmp.eq_of_compare hsame, eventIDOf_eventKey]
  exact hle

/-- A broker whose database holds one event, of ID 5. -/
def oneEvent (lastID : UInt64) : Broker :=
  ⟨⟨lastID, ⟨0, valid_zero⟩⟩, (∅ : DB).insert (eventKey 100 7 5) [9]⟩

/-- A good message followed by one with a negative delay. -/
def refused : Publish Bytes :=
  ⟨⟨[⟨"orders", [1], 5, 0, [[3]]⟩, ⟨"orders", [2], -1, 0, []⟩], .quorum⟩, 100, .none⟩

def accepted : Publish Bytes := ⟨indexedPublish, 100, .none⟩

theorem foreignIndexes_plain {request : Publish Bytes}
    (hforeign : ∀ msg ∈ request.batch.messages, ∀ idx ∈ msg.indexes, Foreign idx) :
    ForeignIndexes plainLibraries request := by
  intro msg hmsg idx hidx bytes hbytes
  cases hbytes
  exact hforeign msg hmsg idx hidx

theorem foreignIndexes_refused : ForeignIndexes plainLibraries refused :=
  foreignIndexes_plain (by decide +kernel)

theorem foreignIndexes_accepted : ForeignIndexes plainLibraries accepted :=
  foreignIndexes_plain (by decide +kernel)

theorem publishing_is_all_or_nothing_refusedFirst :
    (publish plainLibraries .bolt (oneEvent 5) refused).2.db = (oneEvent 5).db ∧
    ∃ items, List.Forall₂ (Becomes plainLibraries ⟨0, valid_zero⟩ 100)
        indexedPublish.messages items ∧
      Added (publishAll plainLibraries .bolt (oneEvent 5) [refused])
        (publish plainLibraries .bolt
          (publishAll plainLibraries .bolt (oneEvent 5) [refused]) accepted).2
        items := by
  have hcovers : Covers (oneEvent 5) := covers_singleton (by decide) _ _ _ _
  have hrefused := publishing_is_all_or_nothing plainLibraries .bolt hcovers []
    refused (by simp) foreignIndexes_refused
  have haccepted := publishing_is_all_or_nothing plainLibraries .bolt hcovers
    [refused] accepted (by simpa using foreignIndexes_refused)
    foreignIndexes_accepted
  obtain ⟨err, herr⟩ := hrefused.1 (.inl ⟨_, .tail _ (.head _), .inl (by decide)⟩)
  exact ⟨hrefused.2.1 err herr,
    haccepted.2.2.2 (by decide +kernel) (by decide +kernel)⟩

/-- The message after the last ID gets ID 0, below the event that is stored. -/
theorem last_id_is_followed_by_zero :
    Covers (oneEvent 0xFFFFFFFFFFFFFFFF) ∧
    ForeignIndexes plainLibraries accepted ∧
    (publish plainLibraries .pebble (oneEvent 0xFFFFFFFFFFFFFFFF) accepted).1 =
      .ok () ∧
    (oneEvent 0xFFFFFFFFFFFFFFFF).db[eventKey 105 7 0]? = none ∧
    (publish plainLibraries .pebble (oneEvent 0xFFFFFFFFFFFFFFFF)
      accepted).2.db[eventKey 105 7 0]? = some [1, 2] ∧
    (oneEvent 0xFFFFFFFFFFFFFFFF).db[eventKey 100 7 5]? = some [9] ∧
    eventIDOf (eventKey 105 7 0) < eventIDOf (eventKey 100 7 5) :=
  ⟨covers_singleton (by decide) _ _ _ _, foreignIndexes_accepted,
    by decide +kernel, by decide +kernel, by decide +kernel, by decide +kernel,
    by decide +kernel⟩

end FutureQ.AllOrNothing
