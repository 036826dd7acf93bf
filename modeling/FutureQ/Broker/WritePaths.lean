import FutureQ.Broker.Producer
import FutureQ.Event.Journal

/-!
# One schema, two write paths

The Raft path computes bucket, hash and bytes of every message in the handler,
carries them through a command and stores them with `StoreRawWithBatch`; the
standalone path leaves all of it to `StoreWithBatch`.  Both fill their batch
with the same writes, so on either engine they leave the same records.
-/

namespace FutureQ.WritePaths

open FutureQ.ByteOrder
open FutureQ.GoRuntime
open FutureQ.OrderedStore
open FutureQ.Storage
open FutureQ.Keys
open FutureQ.Repository
open FutureQ.Commands
open FutureQ.CommandCodec
open FutureQ.StateMachine
open FutureQ.Journal
open FutureQ.Producer

variable {Index : Type} {lib : Libraries Index}

/-! ## The standalone path -/

theorem ofMarshal_of_ok {wrap : MarshalError → RepositoryError}
    {result : Except MarshalError Bytes} {value : Bytes} (hok : result = .ok value)
    (batch : Batch) : ofMarshal wrap result batch = (.ok value, batch) := by
  rw [ofMarshal, hok]
  rfl

theorem onBatch_set_none (key value : Bytes) (batch : Batch) :
    onBatch (set .none key value) batch =
      (.ok (), batch.push [.set key value]) := rfl

theorem forM_putIndex_none {key : Bytes} {indexes : List Index}
    {bytes : List Bytes}
    (hindexes : List.Forall₂ (fun idx value => lib.marshalIndex idx = .ok value)
      indexes bytes) (batch : Batch) :
    (indexes.forM fun idx => do
      let idxBytes ← ofMarshal .marshalIndex (lib.marshalIndex idx)
      onBatch (set .none idxBytes key)) batch =
        (.ok (), batch.push (bytes.map fun idx => .set idx key)) := by
  induction hindexes generalizing batch with
  | nil => simp only [List.map_nil, push_nil]; rfl
  | @cons idx value indexes bytes hvalue _ ih =>
      have hput : (do
          let idxBytes ← ofMarshal .marshalIndex (lib.marshalIndex idx)
          onBatch (set .none idxBytes key) : BatchM RepositoryError Unit) batch =
            (.ok (), batch.push [.set value key]) := by
        rw [batchM_bind_ok (ofMarshal_of_ok hvalue batch)]
        rfl
      have hrest := ih (batch.push [.set value key])
      rw [push_push] at hrest
      exact (batchM_bind_ok hput).trans hrest

/-- Without disk failures a message that serialises appends its writes. -/
theorem putMessage_none {bucketSize : TimeBucketSize} {msg : StoredMessage Index}
    {data : Bytes} {indexes : List Bytes} (hdata : lib.marshal msg = .ok data)
    (hindexes : List.Forall₂ (fun idx value => lib.marshalIndex idx = .ok value)
      msg.indexes indexes) (nextID : UInt64) (batch : Batch) :
    putMessage lib .none bucketSize nextID msg batch =
      (.ok (eventKey (bucketSize.bucket (msg.enqueuedAtUnixMs + msg.delayMs))
        (lib.topicHash msg.topic) nextID),
      batch.push (eventOps nextID
        (eventKey (bucketSize.bucket (msg.enqueuedAtUnixMs + msg.delayMs))
          (lib.topicHash msg.topic) nextID) data indexes)) := by
  rw [putMessage, batchM_bind_ok (onBatch_set_none _ _ _),
    batchM_bind_ok (ofMarshal_of_ok hdata _), batchM_bind_ok (onBatch_set_none _ _ _),
    batchM_bind_ok (forM_putIndex_none hindexes _), push_push, push_push]
  rfl

/-- The loop of the standalone path fills its batch with the writes of the items
that the Raft path would propose. -/
theorem marshalMessages_storeNext {nowMs : Int64} {msgs : List (Message Index)}
    {items : List StoreBatchItem} (repo : EventRepository)
    (hitems : List.Forall₂ (Becomes lib repo.bucketSize nowMs) msgs items)
    (i : ℕ) (batch : Batch) :
    marshalMessages nowMs (storeNext lib .none) i msgs (repo, batch) =
      (.ok (), { repo with lastID := advance repo.lastID items.length },
        batch.push (storeOps repo.lastID items)) := by
  induction msgs generalizing repo items i batch with
  | nil =>
      cases hitems
      simp [marshalMessages, storeOps]
  | cons msg msgs ih =>
      cases hitems with
      | @cons _ item _ items hitem hrest =>
          obtain ⟨hdelay, httl, hraft⟩ := hitem
          obtain ⟨hbucket, hhash, hindexes, hdata⟩ := raftItem_eq_ok_iff.mp hraft
          have hstore : storeNext lib .none (repo, batch) (storedMessage nowMs msg) =
              (.ok (), { repo with lastID := repo.lastID + 1 },
                batch.push (eventOps (repo.lastID + 1)
                  (eventKey item.bucket item.topicHash (repo.lastID + 1)) item.msg
                  item.indexes)) := by
            rw [storeNext, storeWithBatch, putMessage_none hdata hindexes, hbucket,
              hhash]
          rw [marshalMessages, if_neg hdelay, if_neg httl, hstore]
          simp only
          rw [ih { repo with lastID := repo.lastID + 1 } hrest, push_push]
          simp only [storeOps, List.length_cons, advance_succ]

theorem storeNext_cases {faults : Faults} {data : StoredMessage Index}
    {repo after : EventRepository} {batch filled : Batch}
    {outcome : Except PublishError Unit}
    (hstore : storeNext lib faults (repo, batch) data = (outcome, after, filled)) :
    after = { repo with lastID := repo.lastID + 1 } ∧
      ((∃ err, outcome = .error err) ∨
        (outcome = .ok () ∧ ∃ item, raftItem lib repo.bucketSize data = .ok item ∧
          filled = batch.push (eventOps (repo.lastID + 1)
            (eventKey item.bucket item.topicHash (repo.lastID + 1)) item.msg
            item.indexes))) := by
  rw [storeNext, storeWithBatch] at hstore
  rcases hput : putMessage lib faults repo.bucketSize (repo.lastID + 1) data batch
    with ⟨err | key, middle⟩
  · rw [hput] at hstore
    cases hstore
    exact ⟨rfl, .inl ⟨_, rfl⟩⟩
  · rw [hput] at hstore
    cases hstore
    obtain ⟨bytes, indexes, hbytes, hindexes, rfl, rfl⟩ := putMessage_eq_ok hput
    exact ⟨rfl, .inr ⟨rfl, ⟨repo.bucketSize.bucket _, lib.topicHash _, indexes, bytes⟩,
      raftItem_eq_ok_iff.mpr ⟨rfl, rfl, hindexes, hbytes⟩, rfl⟩⟩

/-- However the disk behaves, the loop of the standalone path takes at most one ID
per message, and when it succeeds it has filled its batch with the writes of the
items that the Raft path would propose. -/
theorem marshalMessages_storeNext_cases {faults : Faults} {nowMs : Int64}
    {msgs : List (Message Index)} {repo after : EventRepository} {i : ℕ}
    {batch filled : Batch} {outcome : Except PublishError Unit}
    (hloop : marshalMessages nowMs (storeNext lib faults) i msgs (repo, batch) =
      (outcome, after, filled)) :
    (∃ err, outcome = .error err ∧ ∃ count ≤ msgs.length,
      after = { repo with lastID := advance repo.lastID count }) ∨
    (outcome = .ok () ∧ ∃ items,
      List.Forall₂ (Becomes lib repo.bucketSize nowMs) msgs items ∧
      after = { repo with lastID := advance repo.lastID items.length } ∧
      filled = batch.push (storeOps repo.lastID items)) := by
  induction msgs generalizing repo i batch with
  | nil =>
      cases hloop
      exact .inr ⟨rfl, [], .nil, by simp, by simp [storeOps]⟩
  | cons msg msgs ih =>
      rw [marshalMessages] at hloop
      split_ifs at hloop with hdelay httl
      · cases hloop
        exact .inl ⟨_, rfl, 0, by simp, by simp⟩
      · cases hloop
        exact .inl ⟨_, rfl, 0, by simp, by simp⟩
      · rcases hstore : storeNext lib faults (repo, batch) (storedMessage nowMs msg)
          with ⟨result, next, middle⟩
        rw [hstore] at hloop
        obtain ⟨rfl, ⟨err, rfl⟩ | ⟨rfl, item, hitem, rfl⟩⟩ := storeNext_cases hstore
        · -- the failed store has taken its ID already
          cases hloop
          exact .inl ⟨_, rfl, 1, by simp, by simp [advance_one]⟩
        · rcases ih hloop with ⟨err, herr, count, hcount, hafter⟩ |
            ⟨hok, items, hitems, hafter, hfilled⟩
          · refine .inl ⟨err, herr, count + 1, by simpa using hcount, ?_⟩
            rw [hafter, advance_succ]
          · refine .inr ⟨hok, item :: items, .cons ⟨hdelay, httl, hitem⟩ hitems, ?_, ?_⟩
            · rw [hafter, List.length_cons, advance_succ]
            · rw [hfilled, push_push, storeOps]

/-- A standalone publish leaves the database alone or commits the writes of its
items; the counter moves in both cases. -/
theorem processStandaloneBatch_cases {engine : Engine} {faults : Faults}
    {repo after : EventRepository} {db final : DB} {batch : PublishBatch Index}
    {nowMs : Int64} {outcome : Except PublishError Unit}
    (hprocess : processStandaloneBatch lib engine faults repo db batch nowMs =
      (outcome, after, final)) :
    (∃ err, outcome = .error err ∧ final = db ∧
      ∃ count ≤ batch.messages.length,
        after = { repo with lastID := advance repo.lastID count }) ∨
    (outcome = .ok () ∧ ∃ items,
      List.Forall₂ (Becomes lib repo.bucketSize nowMs) batch.messages items ∧
      final = commit db (storeOps repo.lastID items) ∧
      after = { repo with lastID := advance repo.lastID items.length }) := by
  rw [processStandaloneBatch] at hprocess
  rcases hloop : marshalMessages nowMs (storeNext lib faults) 0 batch.messages
    (repo, newBatch) with ⟨result, middle, pending⟩
  rw [hloop] at hprocess
  rcases marshalMessages_storeNext_cases hloop with ⟨err, rfl, hcount⟩ |
    ⟨rfl, items, hitems, hmiddle, rfl⟩
  · cases hprocess
    exact .inl ⟨err, rfl, rfl, hcount⟩
  · simp only at hprocess
    cases hcommit : engine.commit faults db
        (newBatch.push (storeOps repo.lastID items)) with
    | error err =>
        rw [hcommit] at hprocess
        cases hprocess
        exact .inl ⟨_, rfl, rfl, items.length, hitems.length_eq.ge, hmiddle⟩
    | ok stored =>
        rw [hcommit] at hprocess
        cases hprocess
        refine .inr ⟨rfl, items, hitems, ?_, hmiddle⟩
        rw [commit_eq_ok hcommit]
        simp [newBatch, Batch.push]

/-! ## The Raft path -/

/-- What an `Update` of one store command leaves, on any engine. -/
def storeOutcome (engine : Engine) (sm : EventStateMachine) (index : UInt64)
    (items : List StoreBatchItem) : Updated :=
  let repo := { sm.repo with lastID := advance sm.repo.lastID items.length }
  match engine.commit .none sm.db (newBatch.push (storeOps sm.repo.lastID items)) with
  | .error err => ⟨⟨sm.db, repo, index⟩, .error err, [], []⟩
  | .ok db =>
      ⟨⟨db.insert appliedIndexKey (putUint64 index), repo, index⟩,
        .ok [⟨UInt64.ofNat items.length⟩], [], storeKeys sm.repo.lastID items⟩

theorem update_store {index : UInt64} {cmd : Bytes} {items : List StoreBatchItem}
    (hdecodes : unmarshalStoreBatchCmd cmd = .ok items) (engine : Engine)
    (sm : EventStateMachine) :
    update engine .none sm [⟨index, cmd⟩] =
      .ok (storeOutcome engine sm index items) := by
  have hcarries : Carries [⟨index, cmd⟩] [.store items] :=
    .cons (decodeCommand_eq_store_iff.mpr hdecodes) .nil
  have hops : logOps sm.repo.lastID [.store items] =
      storeOps sm.repo.lastID items := by
    simp [logOps, Command.ops]
  have hitems : logItems [.store items] = items := by
    simp [logItems, Command.items]
  have hlast : lastIndex sm.lastApplied [⟨index, cmd⟩] = index := rfl
  rw [update, foldlM_applyNext hcarries, hops, hitems, hlast]
  simp only [bind, Except.bind, set_none, storeOutcome,
    commit_push (admits_appliedIndex engine _)]
  cases engine.commit .none sm.db (newBatch.push (storeOps sm.repo.lastID items)) with
  | error err => rfl
  | ok db => simp [Except.map, pure, Except.pure, Command.result, Command.deleted,
      logKeys, hitems, BatchOp.apply]

/-- The Raft write path leaves the records that the standalone path leaves, under
the same keys and in the same order, apart from the applied index. -/
theorem raft_path_eq_standalone (engine : Engine) (sm : EventStateMachine)
    (batch : PublishBatch Index) (nowMs : Int64) (index : UInt64)
    {items : List StoreBatchItem}
    (hadmitted : marshalMessages nowMs (appendItem lib sm.repo.bucketSize) 0
      batch.messages [] = (.ok (), items)) :
    ∀ cmd, marshalStoreBatchCmd items = .ok cmd →
      unmarshalStoreBatchCmd cmd = .ok items →
      ∃ (updated : Updated) (outcome : Except PublishError Unit)
        (repo : EventRepository) (pending : Batch) (db : DB),
        update engine .none sm [⟨index, cmd⟩] = .ok updated ∧
        marshalMessages nowMs (storeNext lib .none) 0 batch.messages
          (sm.repo, newBatch) = (.ok (), repo, pending) ∧
        processStandaloneBatch lib engine .none sm.repo sm.db batch nowMs =
          (outcome, repo, db) ∧
        pending.ops = storeOps sm.repo.lastID items ∧
        updated.sm.repo = repo ∧
        AgreeOff {appliedIndexKey} updated.sm.db db ∧
        (outcome = .ok () ↔
          updated.outcome = .ok [⟨UInt64.ofNat items.length⟩]) ∧
        (outcome = .ok () → updated.stored = storeKeys sm.repo.lastID items) := by
  intro cmd _ hdecodes
  obtain ⟨more, hmore, hitems⟩ := marshalMessages_appendItem.mp hadmitted
  obtain rfl : items = more := by simpa using hmore
  have hloop := marshalMessages_storeNext sm.repo hitems 0 newBatch
  have hops : (newBatch.push (storeOps sm.repo.lastID items)).ops =
      storeOps sm.repo.lastID items := by
    simp [newBatch, Batch.push]
  cases hcommit : engine.commit .none sm.db
      (newBatch.push (storeOps sm.repo.lastID items)) with
  | error err =>
      refine ⟨storeOutcome engine sm index items, .error .batchSave, _, _, sm.db,
        update_store hdecodes engine sm, hloop, ?_, hops, ?_⟩
      · rw [processStandaloneBatch, hloop]
        simp only [hcommit]
      · simp only [storeOutcome, hcommit]
        exact ⟨trivial, .refl _ _, by simp, by simp⟩
  | ok db =>
      refine ⟨storeOutcome engine sm index items, .ok (), _, _, db,
        update_store hdecodes engine sm, hloop, ?_, hops, ?_⟩
      · rw [processStandaloneBatch, hloop]
        simp only [hcommit]
      · simp only [storeOutcome, hcommit]
        have hagree : AgreeOff {appliedIndexKey}
            (commit db [.set appliedIndexKey (putUint64 index)]) db :=
          agreeOff_commit_hidden db (by simp [BatchOp.key])
        exact ⟨trivial, hagree, by simp, by simp⟩

/-- One message with an index, in the codec of `plainLibraries`. -/
def indexedPublish : PublishBatch Bytes :=
  ⟨[⟨"orders", [1, 2], 5, 0, [[3]]⟩], .quorum⟩

def indexedItems : List StoreBatchItem := [⟨105, 7, [[3]], [1, 2]⟩]

theorem indexedPublish_admitted :
    marshalMessages 100 (appendItem plainLibraries ⟨0, .inl rfl⟩) 0
      indexedPublish.messages [] = (.ok (), indexedItems) := by
  decide +kernel

theorem raft_path_eq_standalone_indexedPublish :
    ∃ (updated : Updated) (outcome : Except PublishError Unit)
      (repo : EventRepository) (pending : Batch) (db : DB),
      update .bolt .none ⟨∅, ⟨4, ⟨0, .inl rfl⟩⟩, 0⟩
        [⟨9, encodeStoreBatch indexedItems⟩] = .ok updated ∧
      marshalMessages 100 (storeNext plainLibraries .none) 0 indexedPublish.messages
        (⟨4, ⟨0, .inl rfl⟩⟩, newBatch) = (.ok (), repo, pending) ∧
      processStandaloneBatch plainLibraries .bolt .none ⟨4, ⟨0, .inl rfl⟩⟩ ∅
        indexedPublish 100 = (outcome, repo, db) ∧
      pending.ops = storeOps 4 indexedItems ∧
      updated.sm.repo = repo ∧
      AgreeOff {appliedIndexKey} updated.sm.db db ∧
      (outcome = .ok () ↔
        updated.outcome = .ok [⟨UInt64.ofNat indexedItems.length⟩]) ∧
      (outcome = .ok () → updated.stored = storeKeys 4 indexedItems) :=
  raft_path_eq_standalone .bolt ⟨∅, ⟨4, ⟨0, .inl rfl⟩⟩, 0⟩ indexedPublish 100 9
    indexedPublish_admitted _ (marshalStoreBatchCmd_eq indexedItems)
    (unmarshalStoreBatchCmd_encode (by decide) (by decide))

end FutureQ.WritePaths
