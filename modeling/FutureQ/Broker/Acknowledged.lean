import FutureQ.Broker.Producer
import FutureQ.Event.Freshness

/-!
# Acknowledged publishes

The promise behind `Success: true` in Raft mode crosses the handler, the
hand-written codec and the state machine.  It is kept when every length fits
the field that carries it and no index of the batch names an event key that
the batch is given; the casts of the encoder are silent, so an oversized index
or message is acknowledged all the same.
-/

namespace FutureQ.Acknowledged

open FutureQ.ByteOrder
open FutureQ.GoRuntime
open FutureQ.OrderedStore
open FutureQ.Storage
open FutureQ.Keys
open FutureQ.Repository
open FutureQ.Commands
open FutureQ.CommandCodec
open FutureQ.StateMachine
open FutureQ.Journal
open FutureQ.Replica
open FutureQ.Freshness
open FutureQ.Producer

variable {Index : Type} {lib : Libraries Index} {bucketSize : TimeBucketSize}

/-- The key of a message that is stored with the given event ID. -/
def messageKey (lib : Libraries Index) (bucketSize : TimeBucketSize)
    (nowMs : Int64) (msg : Message Index) (eventID : UInt64) : Bytes :=
  eventKey (bucketSize.bucket (nowMs + msg.delayMs)) (lib.topicHash msg.topic)
    eventID

/-- Every length of the batch fits its field in the command. -/
structure SizesFit (lib : Libraries Index) (nowMs : Int64)
    (msg : Message Index) : Prop where
  indexCount : msg.indexes.length < 2 ^ 16
  indexLength : ∀ idx ∈ msg.indexes, ∀ bytes, lib.marshalIndex idx = .ok bytes →
    bytes.length < 2 ^ 16
  msgLength : ∀ data, lib.marshal (storedMessage nowMs msg) = .ok data →
    data.length < 2 ^ 32

/-- No index of a message, or of a later one of the batch, is the event key that
the message gets when the counter stands at `lastID` before the batch. -/
def KeysClear (lib : Libraries Index) (bucketSize : TimeBucketSize)
    (nowMs : Int64) (lastID : UInt64) (msgs : List (Message Index)) : Prop :=
  ∀ before msg after, msgs = before ++ msg :: after →
    ∀ other ∈ msg :: after, ∀ idx ∈ other.indexes,
      lib.marshalIndex idx ≠ .ok (messageKey lib bucketSize nowMs msg
        (advance lastID (before.length + 1)))

/-- An accepted batch was proposed as the encoding of its items. -/
theorem exists_items_of_success {env : Environment} {batch : PublishBatch Index}
    {nowMs : Int64}
    (hack : processBatch lib bucketSize env batch nowMs = (⟨true⟩, .ok ()))
    (hquorum : batch.ackLevel = .quorum) :
    ∃ items, List.Forall₂ (Becomes lib bucketSize nowMs) batch.messages items ∧
      storeBatchItemSize * items.length ≤ maxAlloc ∧
      env.syncPropose (encodeStoreBatch items) = .ok () := by
  have hraft : processRaftBatch lib bucketSize env batch nowMs = .ok () := by
    unfold processBatch at hack
    split at hack
    · simp at hack
    · split at hack
      · simp at hack
      · split at hack
        · simp at hack
        · assumption
  unfold processRaftBatch at hraft
  split at hraft
  · cases hraft
  · obtain ⟨⟨⟩, hslice, hrest⟩ := bind_eq_ok_iff.mp hraft
    cases hmarshal : marshalMessages nowMs (appendItem lib bucketSize) 0
        batch.messages [] with
    | mk outcome items =>
        cases outcome with
        | error err =>
            rw [hmarshal] at hrest
            cases hrest
        | ok _ =>
            obtain ⟨more, hmore, hbecome⟩ := marshalMessages_appendItem.mp hmarshal
            rw [List.nil_append] at hmore
            subst hmore
            have halloc := (makeSlice_eq_ok_iff.mp hslice).2.2
            simp only [hmarshal, marshalStoreBatchCmd_eq, hquorum] at hrest
            refine ⟨items, hbecome, ?_, ?_⟩
            · rw [← hbecome.length_eq]
              exact_mod_cast halloc
            · split at hrest
              · cases hrest
              · assumption

/-- And every such batch is acknowledged. -/
theorem processBatch_of_items {env : Environment} {batch : PublishBatch Index}
    {nowMs : Int64} {items : List StoreBatchItem} (hleader : env.isLeader = true)
    (hmessages : batch.messages ≠ []) (hquorum : batch.ackLevel = .quorum)
    (hbecome : List.Forall₂ (Becomes lib bucketSize nowMs) batch.messages items)
    (halloc : storeBatchItemSize * items.length ≤ maxAlloc)
    (hpropose : env.syncPropose (encodeStoreBatch items) = .ok ()) :
    processBatch lib bucketSize env batch nowMs = (⟨true⟩, .ok ()) := by
  have hslice : makeSlice (ε := PublishError) storeBatchItemSize 0
      batch.messages.length = .ok () := by
    rw [makeSlice_eq_ok_iff, hbecome.length_eq]
    exact ⟨le_rfl, by positivity, by exact_mod_cast halloc⟩
  have hmarshal : marshalMessages nowMs (appendItem lib bucketSize) 0
      batch.messages [] = (.ok (), items) :=
    marshalMessages_appendItem.mpr ⟨items, rfl, hbecome⟩
  have hraft : processRaftBatch lib bucketSize env batch nowMs = .ok () := by
    simp only [processRaftBatch, hleader, Bool.true_eq_false, if_false, hslice,
      ok_bind, hmarshal, marshalStoreBatchCmd_eq, hquorum, hpropose]
  simp [processBatch, hmessages, hquorum, hraft]

theorem fits_of_becomes {nowMs : Int64} {msg : Message Index}
    {item : StoreBatchItem} (hsizes : SizesFit lib nowMs msg)
    (hbecome : Becomes lib bucketSize nowMs msg item) : Fits item := by
  obtain ⟨-, -, hindexes, hdata⟩ := raftItem_eq_ok_iff.mp hbecome.2.2
  refine ⟨hindexes.length_eq ▸ hsizes.indexCount, ?_, hsizes.msgLength _ hdata⟩
  intro bytes hbytes
  obtain ⟨idx, hidx, hmarshal⟩ := exists_mem_of_forall₂ hindexes hbytes
  exact hsizes.indexLength idx hidx bytes hmarshal

/-! ## The promise -/

/-- Splitting a batch at a message splits its items alike. -/
theorem exists_split_of_becomes {nowMs : Int64} {before after : List (Message Index)}
    {msg : Message Index} {items : List StoreBatchItem}
    (hbecome : List.Forall₂ (Becomes lib bucketSize nowMs) (before ++ msg :: after)
      items) :
    ∃ first item rest, items = first ++ item :: rest ∧
      first.length = before.length ∧ Becomes lib bucketSize nowMs msg item ∧
      List.Forall₂ (Becomes lib bucketSize nowMs) after rest := by
  induction before generalizing items with
  | nil =>
      obtain ⟨item, rest, hitem, hrest, rfl⟩ := List.forall₂_cons_left_iff.mp hbecome
      exact ⟨[], item, rest, rfl, rfl, hitem, hrest⟩
  | cons head before ih =>
      obtain ⟨item, rest, hitem, hrest, rfl⟩ := List.forall₂_cons_left_iff.mp hbecome
      obtain ⟨first, item', rest', rfl, hlength, hitem', hrest'⟩ := ih hrest
      exact ⟨item :: first, item', rest', rfl, by simp [hlength], hitem', hrest'⟩

/-- Every message of an acknowledged batch is in the database once the proposed
bytes were applied, under its own topic hash and bucket and with its bytes, if
every length fits its field and no index of the batch names one of its keys. -/
theorem acknowledged_publish_is_stored {env : Environment}
    {batch : PublishBatch Index} {nowMs : Int64} {sm : EventStateMachine}
    {earlier : List Entry} {prior updated : Updated}
    (hprior : update .pebble .none sm earlier = .ok prior)
    (hpropose : ∀ cmdBytes, env.syncPropose cmdBytes = .ok () →
      ∃ index, update .pebble .none sm (earlier ++ [⟨index, cmdBytes⟩]) = .ok updated)
    (hquorum : batch.ackLevel = .quorum)
    (hack : processBatch lib bucketSize env batch nowMs = (⟨true⟩, .ok ()))
    (hsizes : ∀ msg ∈ batch.messages, SizesFit lib nowMs msg)
    (hclear : KeysClear lib bucketSize nowMs prior.sm.repo.lastID batch.messages) :
    ∀ msg ∈ batch.messages, ∃ eventID data,
      lib.marshal (storedMessage nowMs msg) = .ok data ∧
      updated.sm.db[messageKey lib bucketSize nowMs msg eventID]? = some data := by
  obtain ⟨items, hbecome, halloc, hproposed⟩ := exists_items_of_success hack hquorum
  obtain ⟨index, hupdate⟩ := hpropose _ hproposed
  have hfits : ∀ item ∈ items, Fits item := by
    intro item hitem
    obtain ⟨msg, hmsg, hitemOf⟩ := exists_mem_of_forall₂ hbecome hitem
    exact fits_of_becomes (hsizes msg hmsg) hitemOf
  obtain ⟨commands, hcarries, rfl⟩ := update_eq_ok_iff.mp hprior
  have hdecode : decodeCommand (encodeStoreBatch items) = .ok (.store items) :=
    decodeCommand_eq_store_iff.mpr (unmarshalStoreBatchCmd_encode halloc hfits)
  have hboth : Carries (earlier ++ [⟨index, encodeStoreBatch items⟩])
      (commands ++ [.store items]) :=
    carries_append_iff.mpr ⟨commands, _, hcarries, .cons hdecode .nil, rfl⟩
  rw [update_eq hboth, Except.ok.injEq] at hupdate
  subst hupdate
  intro msg hmsg
  obtain ⟨before, after, hsplit⟩ := List.append_of_mem hmsg
  rw [hsplit] at hbecome
  obtain ⟨first, item, rest, rfl, hlength, hitem, hrest⟩ :=
    exists_split_of_becomes hbecome
  obtain ⟨hbucket, hhash, hindexes, hdata⟩ := raftItem_eq_ok_iff.mp hitem.2.2
  have hkey : ∀ eventID, messageKey lib bucketSize nowMs msg eventID =
      eventKey item.bucket item.topicHash eventID := by
    intro eventID
    rw [messageKey, hbucket, hhash]
    rfl
  have hunnamed : ∀ other ∈ item :: rest, ∀ idx ∈ other.indexes,
      idx ≠ eventKey item.bucket item.topicHash
        (advance (report sm earlier commands).sm.repo.lastID (first.length + 1)) := by
    intro other hother idx hidx heq
    obtain ⟨source, hsource, hbecomes⟩ :=
      exists_mem_of_forall₂ (List.Forall₂.cons hitem hrest) hother
    obtain ⟨-, -, hothers, -⟩ := raftItem_eq_ok_iff.mp hbecomes.2.2
    obtain ⟨origin, horigin, hmarshal⟩ := exists_mem_of_forall₂ hothers hidx
    apply hclear before msg after hsplit source hsource origin horigin
    rw [hmarshal, heq, hkey, hlength]
  have hshort : rest.length < 2 ^ 64 := by
    simp only [storeBatchItemSize, maxAlloc, List.length_append,
      List.length_cons] at halloc
    omega
  refine ⟨advance (report sm earlier commands).sm.repo.lastID (first.length + 1),
    item.msg, hdata, ?_⟩
  rw [hkey, report_sm, play, commit_append, getElem?_commit_of_untouched,
    logOps_append, commit_append]
  · simpa [logOps, Command.ops, play] using getElem?_commit_storeOps hunnamed hshort
      (commit sm.db (logOps sm.repo.lastID commands))
  · intro op hop
    rw [List.mem_singleton] at hop
    rw [hop]
    exact appliedIndexKey_ne_eventKey _ _ _

/-! ## An index of 65536 bytes -/

/-- A leader whose proposals of this command succeed. -/
def acceptOnly (cmdBytes : Bytes) : Environment where
  minAckQuorum := true
  isLeader := true
  propose _ := .error ⟨"not proposed"⟩
  syncPropose bytes :=
    if bytes = cmdBytes then .ok () else .error ⟨"another command"⟩

/-- One message with payload `[1]`, due at once. -/
def onePublish (indexes : List Bytes) : PublishBatch Bytes :=
  ⟨[⟨"jobs", [1], 0, 0, indexes⟩], .quorum⟩

theorem becomes_onePublish (indexes : List Bytes) :
    List.Forall₂ (Becomes plainLibraries ⟨0, Or.inl rfl⟩ 5)
      (onePublish indexes).messages [⟨5, 7, indexes, [1]⟩] := by
  have hzero : ¬ (0 : Int64) < 0 := by decide
  have hbucket : 5 = (TimeBucketSize.mk 0 (Or.inl rfl)).bucket (5 + 0) := by
    decide +kernel
  refine .cons ⟨hzero, hzero, ?_⟩ .nil
  rw [raftItem_eq_ok_iff]
  exact ⟨hbucket, rfl, List.forall₂_same.mpr fun idx _ => rfl, rfl⟩

/-- The count of its bytes comes out as zero, and what the decoder then takes
for the message is the front of the index. -/
theorem unmarshal_longIndex {tail msg : Bytes}
    (htail : (putUint32 0 ++ tail).length = 2 ^ 16) :
    unmarshalStoreBatchCmd
        (encodeStoreBatch [⟨5, 7, [putUint32 0 ++ tail], msg⟩]) =
      .ok [⟨5, 7, [[]], []⟩] := by
  rw [unmarshalStoreBatchCmd_eq_ok_iff]
  refine ⟨by decide, by decide,
    tail ++ putUint32 (UInt32.ofNat msg.length) ++ msg, ?_⟩
  have hwrap : UInt16.ofNat (2 ^ 16) = UInt16.ofNat ([] : Bytes).length := by decide
  simp only [encodeStoreBatch, encodeItem, encodeIndex, List.flatMap_cons,
    List.flatMap_nil, List.append_nil, htail, hwrap, List.length_cons,
    List.length_nil, List.append_assoc]
  rfl

/-- The index: 65536 zero bytes. -/
def longIndex : Bytes := putUint32 0 ++ List.replicate (2 ^ 16 - 4) 0

theorem length_longIndex : longIndex.length = 2 ^ 16 := by
  rw [longIndex, List.length_append, length_putUint32, List.length_replicate]
  norm_num

/-- A publish with that index is acknowledged, applied and lost: no event key of
its topic and bucket holds its bytes. -/
theorem acknowledged_publish_is_lost :
    ∃ cmdBytes updated,
      processBatch plainLibraries ⟨0, Or.inl rfl⟩ (acceptOnly cmdBytes)
        (onePublish [longIndex]) 5 = (⟨true⟩, .ok ()) ∧
      update .pebble .none ⟨∅, ⟨0, ⟨0, Or.inl rfl⟩⟩, 0⟩ [⟨1, cmdBytes⟩] =
        .ok updated ∧
      ∀ msg ∈ (onePublish [longIndex]).messages, ∀ eventID,
        updated.sm.db[messageKey plainLibraries ⟨0, Or.inl rfl⟩ 5 msg eventID]? ≠
          some [1] := by
  have hcarries : Carries [⟨1, encodeStoreBatch [⟨5, 7, [longIndex], [1]⟩]⟩]
      [.store [⟨5, 7, [[]], []⟩]] := by
    refine .cons (decodeCommand_eq_store_iff.mpr ?_) .nil
    exact unmarshal_longIndex length_longIndex
  refine ⟨encodeStoreBatch [⟨5, 7, [longIndex], [1]⟩], _, ?_, update_eq hcarries _, ?_⟩
  · apply processBatch_of_items rfl (List.cons_ne_nil _ _) rfl
      (becomes_onePublish [longIndex]) (by simp [storeBatchItemSize, maxAlloc])
    simp [acceptOnly]
  · intro msg _ eventID hstored
    rcases getElem?_commit_eq_some hstored with hempty | hset
    · simp at hempty
    · rcases List.mem_append.mp hset with hset | hset
      · rcases mem_logOps hset with ⟨id, -, hid⟩ | ⟨-, item, hitem, hmsg⟩ | ⟨hkey, -⟩
        · exact absurd (congrArg List.length hid) (by simp)
        · simp [logItems, Command.items] at hitem
          simp [hitem] at hmsg
        · exact absurd (length_of_mem_logKeys hkey) (by decide)
      · rw [List.mem_singleton, BatchOp.set.injEq] at hset
        exact absurd (congrArg List.length hset.2) (by simp)

/-- With an index of one byte the same publish is kept. -/
theorem acknowledged_publish_is_stored_onePublish :
    ∃ cmdBytes updated,
      processBatch plainLibraries ⟨0, Or.inl rfl⟩ (acceptOnly cmdBytes)
        (onePublish [[9]]) 5 = (⟨true⟩, .ok ()) ∧
      update .pebble .none ⟨∅, ⟨0, ⟨0, Or.inl rfl⟩⟩, 0⟩ [⟨1, cmdBytes⟩] =
        .ok updated ∧
      ∀ msg ∈ (onePublish [[9]]).messages, ∃ eventID data,
        plainLibraries.marshal (storedMessage 5 msg) = .ok data ∧
        updated.sm.db[messageKey plainLibraries ⟨0, Or.inl rfl⟩ 5 msg eventID]? =
          some data := by
  have hack : processBatch plainLibraries ⟨0, Or.inl rfl⟩
      (acceptOnly (encodeStoreBatch [⟨5, 7, [[9]], [1]⟩])) (onePublish [[9]]) 5 =
        (⟨true⟩, .ok ()) := by
    apply processBatch_of_items rfl (List.cons_ne_nil _ _) rfl
      (becomes_onePublish [[9]]) (by simp [storeBatchItemSize, maxAlloc])
    simp [acceptOnly]
  have hcarries : Carries [⟨1, encodeStoreBatch [⟨5, 7, [[9]], [1]⟩]⟩]
      [.store [⟨5, 7, [[9]], [1]⟩]] := by
    refine .cons (decodeCommand_eq_store_iff.mpr ?_) .nil
    exact unmarshalStoreBatchCmd_encode (by decide) (by decide)
  obtain ⟨updated, hupdate⟩ : ∃ updated,
      update .pebble .none ⟨∅, ⟨0, ⟨0, Or.inl rfl⟩⟩, 0⟩
        [⟨1, encodeStoreBatch [⟨5, 7, [[9]], [1]⟩]⟩] = .ok updated :=
    ⟨_, update_eq hcarries _⟩
  have hpropose : ∀ cmdBytes,
      (acceptOnly (encodeStoreBatch [⟨5, 7, [[9]], [1]⟩])).syncPropose cmdBytes =
        .ok () →
      ∃ index, update .pebble .none ⟨∅, ⟨0, ⟨0, Or.inl rfl⟩⟩, 0⟩
        ([] ++ [⟨index, cmdBytes⟩]) = .ok updated := by
    intro cmdBytes haccepted
    have hcmd : cmdBytes = encodeStoreBatch [⟨5, 7, [[9]], [1]⟩] := by
      by_contra hother
      simp [acceptOnly, hother] at haccepted
    exact ⟨1, hcmd ▸ hupdate⟩
  refine ⟨_, updated, hack, hupdate, ?_⟩
  refine acknowledged_publish_is_stored (update_eq .nil _) hpropose rfl hack ?_ ?_
  · intro msg hmsg
    rw [onePublish, List.mem_singleton] at hmsg
    subst hmsg
    exact ⟨by decide, by simp [plainLibraries], by simp [plainLibraries, storedMessage]⟩
  · intro before msg after hsplit other hother idx hidx
    have hmem : other ∈ (onePublish [[9]]).messages := by
      rw [hsplit]
      exact List.mem_append_right _ hother
    rw [onePublish, List.mem_singleton] at hmem
    subst hmem
    rw [List.mem_singleton.mp hidx]
    intro heq
    have hlengths := congrArg List.length (Except.ok.inj heq)
    simp [messageKey] at hlengths

end FutureQ.Acknowledged
