import FutureQ.Broker.Deleter
import FutureQ.Broker.Dispatcher
import FutureQ.Broker.WritePaths

/-!
# Rounds of delivery

Publishes, the handlers of the consumers, the goroutine of the dispatcher and
the goroutine of the deleter share the database, the hub and the in-flight
table.  A `Broker` is this shared state, and an action is what one of them does
without the others coming between: a dispatch pass takes its snapshot and then
checks, dispatches and tracks one key after the other; a flush drains the queue,
calls the backend and reports one key after the other.  The log is history and
records who was registered, who was sent a message, who acknowledged it and when
it was removed, with the newest event in front.
-/

namespace FutureQ.Rounds

open FutureQ.ByteOrder
open FutureQ.GoRuntime
open FutureQ.OrderedStore
open FutureQ.RetryQueue
open FutureQ.Transition
open FutureQ.Storage
open FutureQ.Keys
open FutureQ.Repository
open FutureQ.Commands
open FutureQ.StateMachine
open FutureQ.Journal
open FutureQ.Producer
open FutureQ.WritePaths
open FutureQ.Deleter
open FutureQ.DueScan
open FutureQ.Consumers
open FutureQ.Dispatch

/-- Whoever must get every message of a topic: a group, or a universal
consumer. -/
inductive Subscriber where
  | group (topic gid : String)
  | universal (id : String)
  deriving DecidableEq, Repr

def subscriber (consumer : ConsumerEntry) : Subscriber :=
  if consumer.isUniversal then .universal consumer.id
  else .group consumer.topic consumer.group

/-- The groups and the universal consumers registered on a topic. -/
def subscribers (hub : Hub) (topic : String) : List Subscriber :=
  (hub.subscription topic).groups.keys.map (.group topic) ++
    (hub.subscription topic).universal.keys.map .universal

/-- The subscriber that is no longer registered once a consumer is gone. -/
def leaving (hub : Hub) (id : String) : List Subscriber :=
  match hub.byID[id]? with
  | none => []
  | some entry =>
      if subscriber entry ∈ subscribers (hub.unregister id) entry.topic then []
      else [subscriber entry]

inductive Event where
  | dispatched (key : Bytes) (registered : List Subscriber)
  | sent (consumer : ConsumerEntry) (key : Bytes)
  | acked (consumer : ConsumerEntry) (key : Bytes) (success : Bool)
  | left (gone : Subscriber)
  | removed (key : Bytes) (expired : Bool)
  | reported (key : Bytes)
  deriving DecidableEq, Repr

variable {Index : Type}

/-- Where the callback of a pass stands between two of its steps. -/
inductive Hand (Index : Type) where
  | idle
  | checked (key : Bytes) (msg : StoredMessage Index)
  | sent (key : Bytes)

/-- A call of `dispatchTopic`: `rest` is what its snapshot still holds. -/
structure Round (Index : Type) where
  topic : String
  nowMs : Int64
  rest : List (Bytes × Bytes)
  hand : Hand Index
  expiredKeys : List Bytes

inductive Backend where
  | direct
  | raft
  deriving DecidableEq, Repr

/-- `late` are the batches whose proposal failed and whose command may still be
applied, and `nowMs` is the wall clock, which does not go back. -/
structure Broker (Index : Type) where
  sm : EventStateMachine
  hub : Hub
  dispatcher : Dispatcher
  queue : Queue Bytes
  late : List (List Bytes)
  round : Option (Round Index)
  nowMs : Int64
  log : List Event

def Broker.start (bucketSize : TimeBucketSize) (inFlightTimeout : Duration)
    (nowMs : Int64) : Broker Index where
  sm := ⟨∅, ⟨0, bucketSize⟩, 0⟩
  hub := newHub
  dispatcher := newDispatcher inFlightTimeout
  queue := .empty
  late := []
  round := none
  nowMs
  log := []

/-- `publish` is a batch on a standalone broker and `apply` a committed entry on
a Raft node, other than the delete commands of its own deleter.  `begin` to
`finish` are the steps of `dispatchTopic`, `drain` to `notify` those of `flush`;
`applyLate` is the command of a proposal that failed. -/
inductive Action (Index : Type) where
  | tick (nowMs : Int64)
  | publish (batch : PublishBatch Index) (nowMs : Int64)
  | apply (entry : Entry)
  | register (consumer : ConsumerEntry)
  | unregister (id : String)
  | receive (id : String)
  | ack (consumer : ConsumerEntry) (deliveryTag : Bytes) (success : Bool)
  | begin (topic : String) (nowMs : Int64)
  | check (now : ℕ)
  | dispatch (order : DispatchOrder)
  | track (now : ℕ)
  | scanError
  | expire
  | finish
  | drain
  | deleteKeys (proposal : Proposal)
  | reenqueue
  | notify
  | applyLate (position : ℕ) (index : UInt64)

/-- The time to live has passed, with the sum taken in the integers. -/
def Expired (msg : StoredMessage Index) (nowMs : Int64) : Prop :=
  0 < msg.ttlMs.toInt ∧
    msg.enqueuedAtUnixMs.toInt + msg.ttlMs.toInt ≤ nowMs.toInt

instance (msg : StoredMessage Index) (nowMs : Int64) :
    Decidable (Expired msg nowMs) :=
  inferInstanceAs (Decidable (_ ∧ _))

/-- The stored messages that a write takes away. -/
def losses (lib : Libraries Index) (nowMs : Int64) (before after : DB) :
    List Event :=
  before.toList.filterMap fun entry =>
    if entry.1.length = 24 ∧ after[entry.1]? ≠ some entry.2 then
      (lib.unmarshal entry.2).map fun msg =>
        .removed entry.1 (decide (Expired msg nowMs))
    else none

def Broker.rewrite (lib : Libraries Index) (broker : Broker Index)
    (sm : EventStateMachine) : Broker Index :=
  { broker with
    sm
    log := losses lib broker.nowMs broker.sm.db sm.db ++ broker.log }

/-- `DeleteKeys` of either backend; on the standalone one a rejected proposal is
a commit that fails. -/
def callDeleteKeys (backend : Backend) (sm : EventStateMachine)
    (keys : List Bytes) (proposal : Proposal) : Option Deletion :=
  match backend, proposal with
  | .raft, proposal => raftDeleteKeys sm keys proposal
  | .direct, .accepted _ =>
      match directDeleteKeys .pebble .none sm.db keys with
      | .error _ => none
      | .ok db => some ⟨true, { sm with db }, []⟩
  | .direct, .rejected => some ⟨false, sm, []⟩
  | .direct, .lost _ => none

/-- The batches that may be applied later, after a call on `keys`. -/
def lateAfter (backend : Backend) (late : List (List Bytes)) (keys : List Bytes)
    (proposal : Proposal) : List (List Bytes) :=
  if backend = .raft ∧ proposal = .rejected then late ++ [keys] else late

def Broker.enqueue (broker : Broker Index) (event : RetryQueue.Event Bytes) :
    Option (Broker Index) :=
  (RetryQueue.step pendingCapacity broker.queue event).map fun queue =>
    { broker with queue }

/-- `isInFlight` and what follows it, up to the call of the hub. -/
def Broker.check (lib : Libraries Index) (broker : Broker Index)
    (round : Round Index) (now : ℕ) (entry : Bytes × Bytes)
    (rest : List (Bytes × Bytes)) : Broker Index :=
  match broker.dispatcher.inspect lib round.nowMs now entry.1 entry.2 with
  | (.inFlight, dispatcher) =>
      { broker with dispatcher, round := some { round with rest } }
  | (.undecodable, dispatcher) =>
      { broker with dispatcher, round := some { round with rest } }
  | (.expired, dispatcher) =>
      { broker with
        dispatcher
        round := some { round with
          rest, expiredKeys := round.expiredKeys ++ [entry.1] } }
  | (.deliverable msg, dispatcher) =>
      { broker with
        dispatcher
        round := some { round with rest, hand := .checked entry.1 msg } }

def Broker.dispatch (broker : Broker Index) (round : Round Index)
    (order : DispatchOrder) (key : Bytes) (msg : StoredMessage Index) :
    Broker Index :=
  let delivery :=
    broker.hub.dispatchToTopic order round.topic (queueMessage key msg) key
  { broker with
    hub := delivery.hub
    round := some { round with
      hand := if delivery.sentTo.length = 0 then .idle else .sent key }
    log := delivery.receivers.reverse.map (.sent · key) ++
      .dispatched key (subscribers broker.hub msg.topic) :: broker.log }

def step (lib : Libraries Index) (backend : Backend) (broker : Broker Index) :
    Action Index → Option (Broker Index)
  | .tick nowMs =>
      if broker.nowMs ≤ nowMs then some { broker with nowMs } else none
  | .publish batch nowMs =>
      match backend with
      | .raft => none
      | .direct =>
          match processStandaloneBatch lib .pebble .none broker.sm.repo broker.sm.db
              batch nowMs with
          | (_, repo, db) => some (broker.rewrite lib { broker.sm with repo, db })
  | .apply entry =>
      match backend, unmarshalDeleteBatchCmd entry.cmd,
          update .pebble .none broker.sm [entry] with
      | .raft, .error _, .ok updated => some (broker.rewrite lib updated.sm)
      | _, _, _ => none
  | .register consumer =>
      if consumer.topic ≠ "" ∧ broker.hub.channels[consumer.id]? = none then
        some { broker with hub := broker.hub.register consumer }
      else none
  | .unregister id =>
      some { broker with
        hub := broker.hub.unregister id
        log := (leaving broker.hub id).map .left ++ broker.log }
  | .receive id => some { broker with hub := broker.hub.receive id }
  | .ack consumer deliveryTag success =>
      let acked := { broker with
        hub := broker.hub.removeInFlightForConsumer consumer.id deliveryTag
        log := .acked consumer deliveryTag success :: broker.log }
      if success then acked.enqueue (.mark deliveryTag) else some acked
  | .begin topic nowMs =>
      match broker.round with
      | some _ => none
      | none =>
          if nowMs ≤ broker.nowMs then
            some { broker with
              round := some
                { topic, nowMs
                  rest := dueScan broker.sm.db (lib.topicHash topic)
                    (broker.sm.repo.bucketSize.bucket nowMs)
                  hand := .idle
                  expiredKeys := [] } }
          else none
  | .check now =>
      match broker.round with
      | some { topic, nowMs, rest := entry :: rest, hand := .idle, expiredKeys } =>
          some (broker.check lib ⟨topic, nowMs, entry :: rest, .idle, expiredKeys⟩
            now entry rest)
      | _ => none
  | .dispatch order =>
      match broker.round with
      | some { topic, nowMs, rest, hand := .checked key msg, expiredKeys } =>
          some (broker.dispatch ⟨topic, nowMs, rest, .checked key msg, expiredKeys⟩
            order key msg)
      | _ => none
  | .track now =>
      match broker.round with
      | some { topic, nowMs, rest, hand := .sent key, expiredKeys } =>
          some { broker with
            dispatcher := broker.dispatcher.track key now topic
            round := some ⟨topic, nowMs, rest, .idle, expiredKeys⟩ }
      | _ => none
  | .scanError =>
      match broker.round with
      | some { topic, nowMs, rest := _, hand := .idle, expiredKeys } =>
          some { broker with round := some ⟨topic, nowMs, [], .idle, expiredKeys⟩ }
      | _ => none
  | .expire =>
      match broker.round with
      | some { topic, nowMs, rest := [], hand := .idle, expiredKeys := key :: keys } =>
          Broker.enqueue
            { broker with round := some ⟨topic, nowMs, [], .idle, keys⟩ } (.mark key)
      | _ => none
  | .finish =>
      match broker.round with
      | some { topic := _, nowMs := _, rest := [], hand := .idle, expiredKeys := [] } =>
          some { broker with round := none }
      | _ => none
  | .drain => broker.enqueue .drain
  | .deleteKeys proposal =>
      match broker.queue.phase with
      | .working keys =>
          match callDeleteKeys backend broker.sm keys proposal with
          | none => none
          | some deletion =>
              Broker.enqueue
                { broker.rewrite lib deletion.sm with
                  dispatcher :=
                    broker.dispatcher.removeInFlightBatch deletion.reported
                  late := lateAfter backend broker.late keys proposal }
                (.returned deletion.accepted)
      | _ => none
  | .reenqueue => broker.enqueue .reenqueue
  | .notify =>
      match broker.queue.phase with
      | .notifying (key :: _) =>
          Broker.enqueue
            { broker with
              dispatcher := broker.dispatcher.removeInFlight key
              log := .reported key :: broker.log }
            .notify
      | _ => none
  | .applyLate position index =>
      match broker.late[position]? with
      | none => none
      | some keys =>
          (raftDeleteKeys broker.sm keys (.accepted index)).map fun deletion =>
            { broker.rewrite lib deletion.sm with
              dispatcher := broker.dispatcher.removeInFlightBatch deletion.reported
              late := broker.late.eraseIdx position }

/-! ## What a step does -/

/-- The keys that a publish writes. -/
def written (lib : Libraries Index) (sm : EventStateMachine) :
    Action Index → List Bytes
  | .publish batch nowMs =>
      (storeOps sm.repo.lastID (batch.messages.filterMap fun msg =>
        (raftItem lib sm.repo.bucketSize (storedMessage nowMs msg)).toOption)).map
          BatchOp.key
  | .apply entry =>
      match unmarshalStoreBatchCmd entry.cmd with
      | .error _ => []
      | .ok items => (storeOps sm.repo.lastID items).map BatchOp.key
  | _ => []

/-- The keys that the deleter may still take away. -/
def Broker.doomed (broker : Broker Index) : List Bytes :=
  broker.queue.waiting ++ broker.late.flatten

theorem mem_doomed_of_waiting {broker : Broker Index} {queue : Queue Bytes}
    (hwaiting : ∀ key ∈ queue.waiting, key ∈ broker.queue.waiting) :
    ∀ key ∈ queue.waiting ++ broker.late.flatten, key ∈ broker.doomed := by
  intro key hkey
  exact List.mem_append.mpr ((List.mem_append.mp hkey).imp_left (hwaiting key))

theorem mem_doomed_mark {queue : Queue Bytes} {late : List (List Bytes)}
    {marked key : Bytes}
    (hkey : key ∈ Queue.waiting { queue with pending := queue.pending ++ [marked] } ++
      late.flatten) :
    key = marked ∨ key ∈ queue.waiting ++ late.flatten := by
  simp only [Queue.waiting, List.mem_append, List.mem_singleton] at hkey ⊢
  tauto

/-- Event keys other than `keys` keep their values. -/
def KeepsBut (keys : List Bytes) (before after : DB) : Prop :=
  ∀ key : Bytes, key.length = 24 → key ∉ keys → after[key]? = before[key]?

/-- The keys are gone, and other event keys keep their values. -/
structure Deletes (keys : List Bytes) (before after : DB) : Prop where
  kept : KeepsBut keys before after
  gone : ∀ key ∈ keys, key.length = 24 → after[key]? = none

/-- What an action does to a broker. -/
inductive Effect (lib : Libraries Index) (broker : Broker Index) :
    Action Index → Broker Index → Prop where
  | tick (nowMs : Int64) (hlater : broker.nowMs ≤ nowMs) :
      Effect lib broker (.tick nowMs) { broker with nowMs }
  | publish (batch : PublishBatch Index) (nowMs : Int64) (sm : EventStateMachine)
      (hkept : KeepsBut (written lib broker.sm (.publish batch nowMs))
        broker.sm.db sm.db) :
      Effect lib broker (.publish batch nowMs) (broker.rewrite lib sm)
  | apply (entry : Entry) (sm : EventStateMachine)
      (hkept : KeepsBut (written lib broker.sm (.apply entry)) broker.sm.db sm.db) :
      Effect lib broker (.apply entry) (broker.rewrite lib sm)
  | register (consumer : ConsumerEntry) :
      Effect lib broker (.register consumer)
        { broker with hub := broker.hub.register consumer }
  | unregister (id : String) :
      Effect lib broker (.unregister id)
        { broker with
          hub := broker.hub.unregister id
          log := (leaving broker.hub id).map .left ++ broker.log }
  | receive (id : String) :
      Effect lib broker (.receive id) { broker with hub := broker.hub.receive id }
  | nack (consumer : ConsumerEntry) (deliveryTag : Bytes) :
      Effect lib broker (.ack consumer deliveryTag false)
        { broker with
          hub := broker.hub.removeInFlightForConsumer consumer.id deliveryTag
          log := .acked consumer deliveryTag false :: broker.log }
  | ack (consumer : ConsumerEntry) (deliveryTag : Bytes) :
      Effect lib broker (.ack consumer deliveryTag true)
        { broker with
          hub := broker.hub.removeInFlightForConsumer consumer.id deliveryTag
          queue := { broker.queue with
            pending := broker.queue.pending ++ [deliveryTag] }
          log := .acked consumer deliveryTag true :: broker.log }
  | begin (topic : String) (nowMs : Int64) (hreached : nowMs ≤ broker.nowMs) :
      Effect lib broker (.begin topic nowMs)
        { broker with
          round := some ⟨topic, nowMs,
            dueScan broker.sm.db (lib.topicHash topic)
              (broker.sm.repo.bucketSize.bucket nowMs), .idle, []⟩ }
  | skip (now : ℕ) (round : Round Index) (key value : Bytes)
      (rest : List (Bytes × Bytes)) (hround : broker.round = some round)
      (hrest : round.rest = (key, value) :: rest) :
      Effect lib broker (.check now)
        { broker with
          dispatcher := (broker.dispatcher.isInFlight key now).2
          round := some { round with rest } }
  | expired (now : ℕ) (round : Round Index) (key value : Bytes)
      (rest : List (Bytes × Bytes)) (msg : StoredMessage Index)
      (hround : broker.round = some round)
      (hrest : round.rest = (key, value) :: rest)
      (hdecodes : lib.unmarshal value = some msg)
      (hexpired : isExpired msg round.nowMs = true) :
      Effect lib broker (.check now)
        { broker with
          dispatcher := (broker.dispatcher.isInFlight key now).2
          round := some { round with
            rest, expiredKeys := round.expiredKeys ++ [key] } }
  | deliverable (now : ℕ) (round : Round Index) (key value : Bytes)
      (rest : List (Bytes × Bytes)) (msg : StoredMessage Index)
      (hround : broker.round = some round)
      (hrest : round.rest = (key, value) :: rest)
      (hdecodes : lib.unmarshal value = some msg)
      (halive : isExpired msg round.nowMs = false) :
      Effect lib broker (.check now)
        { broker with
          dispatcher := (broker.dispatcher.isInFlight key now).2
          round := some { round with rest, hand := .checked key msg } }
  | dispatch (order : DispatchOrder) (round : Round Index) (key : Bytes)
      (msg : StoredMessage Index) (hround : broker.round = some round)
      (hhand : round.hand = .checked key msg) :
      Effect lib broker (.dispatch order) (broker.dispatch round order key msg)
  | track (now : ℕ) (round : Round Index) (key : Bytes)
      (hround : broker.round = some round) (hhand : round.hand = .sent key) :
      Effect lib broker (.track now)
        { broker with
          dispatcher := broker.dispatcher.track key now round.topic
          round := some { round with hand := .idle } }
  | scanError (round : Round Index) (hround : broker.round = some round) :
      Effect lib broker .scanError
        { broker with round := some { round with rest := [] } }
  | expire (round : Round Index) (key : Bytes) (keys : List Bytes)
      (hround : broker.round = some round)
      (hkeys : round.expiredKeys = key :: keys) :
      Effect lib broker .expire
        { broker with
          queue := { broker.queue with pending := broker.queue.pending ++ [key] }
          round := some { round with expiredKeys := keys } }
  | finish : Effect lib broker .finish { broker with round := none }
  | requeue (action : Action Index) (queue : Queue Bytes)
      (hwaiting : ∀ key ∈ queue.waiting, key ∈ broker.queue.waiting) :
      Effect lib broker action { broker with queue }
  | delete (action : Action Index) (keys : List Bytes) (sm : EventStateMachine)
      (dispatcher : Dispatcher) (queue : Queue Bytes) (late : List (List Bytes))
      (hdoomed : ∀ key ∈ queue.waiting ++ late.flatten ++ keys, key ∈ broker.doomed)
      (hdeletes : Deletes keys broker.sm.db sm.db)
      (hforgets : ∀ key : Bytes, broker.dispatcher.inFlight[key]? = none →
        dispatcher.inFlight[key]? = none) :
      Effect lib broker action
        { broker.rewrite lib sm with dispatcher, queue, late }
  | notify (key : Bytes) (keys : List Bytes) (queue : Queue Bytes)
      (hnotifying : broker.queue.phase = .notifying (key :: keys))
      (hwaiting : ∀ other ∈ queue.waiting, other ∈ broker.queue.waiting) :
      Effect lib broker .notify
        { broker with
          queue
          dispatcher := broker.dispatcher.removeInFlight key
          log := .reported key :: broker.log }

theorem Expired.mono {msg : StoredMessage Index} {earlier later : Int64}
    (hexpired : Expired msg earlier) (hle : earlier ≤ later) : Expired msg later :=
  ⟨hexpired.1, hexpired.2.trans (Int64.le_iff_toInt_le.mp hle)⟩

theorem expired_of_isExpired {msg : StoredMessage Index} {nowMs : Int64}
    (hexpired : isExpired msg nowMs = true)
    (hbound : msg.enqueuedAtUnixMs.toInt + msg.ttlMs.toInt < 2 ^ 63) :
    Expired msg nowMs := by
  rw [isExpired] at hexpired
  split_ifs at hexpired with hnever
  have hpositive : 0 < msg.ttlMs.toInt := by
    simpa using Int64.lt_iff_toInt_lt.mp (Int64.not_le.mp hnever)
  have hlower := msg.enqueuedAtUnixMs.le_toInt
  have hsum := toInt_add (by omega) hbound
  have hreached := Int64.le_iff_toInt_le.mp (of_decide_eq_true hexpired)
  exact ⟨hpositive, hsum ▸ hreached⟩

theorem mem_losses {lib : Libraries Index} {nowMs : Int64} {before after : DB}
    {event : Event} (hevent : event ∈ losses lib nowMs before after) :
    ∃ key value msg, key.length = 24 ∧ before[key]? = some value ∧
      after[key]? ≠ some value ∧ lib.unmarshal value = some msg ∧
      event = .removed key (decide (Expired msg nowMs)) := by
  obtain ⟨⟨key, value⟩, hentry, hloss⟩ := List.mem_filterMap.mp hevent
  split_ifs at hloss with hlost
  obtain ⟨msg, hmsg, rfl⟩ := Option.map_eq_some_iff.mp hloss
  exact ⟨key, value, msg, hlost.1,
    Std.ExtTreeMap.mem_toList_iff_getElem?_eq_some.mp hentry, hlost.2, hmsg, rfl⟩

/-- Batches that exist fit in memory. -/
structure Stocked (broker : Broker Index) : Prop where
  queue : Fits pendingCapacity broker.queue
  late : ∀ keys ∈ broker.late, keys.length ≤ pendingCapacity

theorem stocked_start (bucketSize : TimeBucketSize) (inFlightTimeout : Duration)
    (nowMs : Int64) :
    Stocked (Broker.start bucketSize inFlightTimeout nowMs : Broker Index) where
  queue := ⟨Nat.zero_le _, Nat.zero_le _⟩
  late _ hkeys := absurd hkeys List.not_mem_nil

theorem KeepsBut.refl (db : DB) : KeepsBut [] db db := fun _ _ _ => rfl

/-- A commit that also records the applied index changes its own keys only. -/
theorem keepsBut_commit (db : DB) (ops tail : List Op)
    (htail : ∀ op ∈ tail, op.key = appliedIndexKey) :
    KeepsBut (ops.map BatchOp.key) db (commit db (ops ++ tail)) := by
  intro key hlength hkey
  apply getElem?_commit_of_untouched
  intro op hop heq
  rcases List.mem_append.mp hop with hwrite | hrecord
  · exact hkey (List.mem_map.mpr ⟨op, hwrite, heq⟩)
  · exact appliedIndexKey_ne_of_length hlength ((htail op hrecord).symm.trans heq)

theorem deletes_commit (db : DB) (keys : List Bytes) :
    Deletes keys db (commit db (keys.map .delete)) := by
  have hkept := keepsBut_commit db (keys.map .delete) [] (by simp)
  have hkeys : (keys.map fun key => (.delete key : Op)).map BatchOp.key = keys := by
    simp [Function.comp_def, BatchOp.key]
  rw [hkeys, List.append_nil] at hkept
  exact ⟨hkept, fun key hkey _ => getElem?_commit_delete_mem _ hkey⟩

theorem deletes_afterDelete {keys : List Bytes}
    (hkeys : ∀ key ∈ keys, key.length = 24) (sm : EventStateMachine)
    (index : UInt64) : Deletes keys sm.db (afterDelete sm index keys).db := by
  refine ⟨?_, fun key hkey _ => getElem?_afterDelete hkeys sm index hkey⟩
  intro key hlength hkey
  have hrecord := keepsBut_commit (commit sm.db (keys.map .delete)) []
    [.set appliedIndexKey (putUint64 index)] (by simp [BatchOp.key])
  rw [db_afterDelete]
  exact (hrecord key hlength (by simp)).trans
    ((deletes_commit sm.db keys).kept key hlength hkey)

/-- A call of `DeleteKeys` removes all its keys or none. -/
theorem raftDeleteKeys_cases {sm : EventStateMachine} {keys : List Bytes}
    {proposal : Proposal} {deletion : Deletion}
    (hroom : keys.length ≤ pendingCapacity)
    (hcall : raftDeleteKeys sm keys proposal = some deletion) :
    ∃ deleted ⊆ keys, Deletes deleted sm.db deletion.sm.db := by
  have hnothing : ∃ deleted ⊆ keys, Deletes deleted sm.db sm.db :=
    ⟨[], List.nil_subset _, .refl _, by simp⟩
  by_cases hbad : ∃ key ∈ keys, key.length ≠ 24
  · rw [raftDeleteKeys_of_bad hbad] at hcall
    cases hcall
    exact hnothing
  · push Not at hbad
    rw [raftDeleteKeys_of_lengths hbad hroom] at hcall
    cases proposal with
    | accepted index =>
        cases hcall
        exact ⟨keys, List.Subset.refl _, deletes_afterDelete hbad sm index⟩
    | rejected =>
        cases hcall
        exact hnothing
    | lost index =>
        cases hcall
        exact ⟨keys, List.Subset.refl _, deletes_afterDelete hbad sm index⟩

theorem callDeleteKeys_cases {backend : Backend} {sm : EventStateMachine}
    {keys : List Bytes} {proposal : Proposal} {deletion : Deletion}
    (hroom : keys.length ≤ pendingCapacity)
    (hcall : callDeleteKeys backend sm keys proposal = some deletion) :
    ∃ deleted ⊆ keys, Deletes deleted sm.db deletion.sm.db := by
  cases backend with
  | raft => exact raftDeleteKeys_cases hroom hcall
  | direct =>
      cases proposal with
      | accepted index =>
          simp only [callDeleteKeys, directDeleteKeys_none] at hcall
          cases hcall
          exact ⟨keys, List.Subset.refl _, deletes_commit sm.db keys⟩
      | rejected =>
          cases hcall
          exact ⟨[], List.nil_subset _, .refl _, by simp⟩
      | lost index => cases hcall

theorem keepsBut_publish {lib : Libraries Index} {sm : EventStateMachine}
    {batch : PublishBatch Index} {nowMs : Int64} {outcome : Except PublishError Unit}
    {repo : EventRepository} {db : DB}
    (hprocess : processStandaloneBatch lib .pebble .none sm.repo sm.db batch nowMs =
      (outcome, repo, db)) :
    KeepsBut (written lib sm (.publish batch nowMs)) sm.db db := by
  rcases processStandaloneBatch_cases hprocess with
    ⟨err, -, rfl, -⟩ | ⟨-, items, hitems, rfl, -⟩
  · exact fun _ _ _ => rfl
  · have hraft : List.Forall₂ (fun msg item =>
        raftItem lib sm.repo.bucketSize (storedMessage nowMs msg) = .ok item)
        batch.messages items := hitems.imp fun _ _ hitem => hitem.2.2
    have hkept := keepsBut_commit sm.db (storeOps sm.repo.lastID items) [] (by simp)
    rw [List.append_nil] at hkept
    rw [written, filterMap_toOption hraft]
    exact hkept

theorem keepsBut_apply (lib : Libraries Index) {sm : EventStateMachine}
    {entry : Entry} {fault : Fault CommandError} {updated : Updated}
    (hdelete : unmarshalDeleteBatchCmd entry.cmd = .error fault)
    (hupdate : update .pebble .none sm [entry] = .ok updated) :
    KeepsBut (written lib sm (.apply entry)) sm.db updated.sm.db := by
  obtain ⟨command, hdecode, rfl⟩ := exists_command_of_update hupdate
  have hdb : (report sm [entry] [command]).sm.db =
      commit sm.db (command.ops sm.repo.lastID ++
        [.set appliedIndexKey (putUint64 entry.index)]) := by
    simp [report, play, logOps, lastIndex]
  rw [hdb]
  have hkept := keepsBut_commit sm.db (command.ops sm.repo.lastID)
    [.set appliedIndexKey (putUint64 entry.index)] (by simp [BatchOp.key])
  cases command with
  | store items =>
      rw [written, decodeCommand_eq_store_iff.mp hdecode]
      exact hkept
  | delete keys =>
      rw [decodeCommand_eq_delete_iff.mp hdecode] at hdelete
      cases hdelete
  | skip =>
      intro key hlength _
      exact hkept key hlength (by simp [Command.ops])

theorem mem_lateAfter {backend : Backend} {late : List (List Bytes)}
    {keys batch : List Bytes} {proposal : Proposal}
    (hbatch : batch ∈ lateAfter backend late keys proposal) :
    batch ∈ late ∨ batch = keys := by
  rw [lateAfter] at hbatch
  split_ifs at hbatch
  · simpa using hbatch
  · exact .inl hbatch

theorem inFlight_removeInFlightBatch (dispatcher : Dispatcher) (keys : List Bytes)
    {key : Bytes} (habsent : dispatcher.inFlight[key]? = none) :
    (dispatcher.removeInFlightBatch keys).inFlight[key]? = none := by
  induction keys generalizing dispatcher with
  | nil => exact habsent
  | cons head keys ih =>
      apply ih
      rw [Dispatcher.removeInFlight, Std.ExtTreeMap.getElem?_erase]
      split_ifs
      · rfl
      · exact habsent

theorem effect_check (lib : Libraries Index) {broker : Broker Index}
    {round : Round Index} {key value : Bytes} {rest : List (Bytes × Bytes)}
    (hround : broker.round = some round)
    (hrest : round.rest = (key, value) :: rest) (now : ℕ) :
    Effect lib broker (.check now)
      (broker.check lib round now (key, value) rest) := by
  have hsnd := inspect_snd lib broker.dispatcher round.nowMs now key value
  rw [Broker.check]
  rcases hinspect : broker.dispatcher.inspect lib round.nowMs now key value with
    ⟨verdict, after⟩
  rw [hinspect] at hsnd
  cases hsnd
  cases verdict with
  | inFlight => exact .skip now round key value rest hround hrest
  | undecodable => exact .skip now round key value rest hround hrest
  | expired =>
      obtain ⟨msg, hdecodes, hexpired⟩ := exists_of_inspect_eq_expired
        (congrArg Prod.fst hinspect)
      exact .expired now round key value rest msg hround hrest hdecodes hexpired
  | deliverable msg =>
      obtain ⟨-, hdecodes, halive⟩ := inspect_eq_deliverable_iff.mp
        (congrArg Prod.fst hinspect)
      exact .deliverable now round key value rest msg hround hrest hdecodes halive

theorem stocked_check (lib : Libraries Index) {broker : Broker Index}
    (hstocked : Stocked broker) (round : Round Index) (now : ℕ)
    (entry : Bytes × Bytes) (rest : List (Bytes × Bytes)) :
    Stocked (broker.check lib round now entry rest) := by
  rw [Broker.check]
  split
  all_goals exact ⟨hstocked.queue, hstocked.late⟩

theorem effect_deleteKeys {lib : Libraries Index} {backend : Backend}
    {broker next : Broker Index} {proposal : Proposal} (hstocked : Stocked broker)
    (hstep : step lib backend broker (.deleteKeys proposal) = some next) :
    Effect lib broker (.deleteKeys proposal) next ∧ Stocked next := by
  simp only [step] at hstep
  split at hstep
  · rename_i keys hworking
    split at hstep
    · cases hstep
    · rename_i deletion hcall
      obtain ⟨queue, hqueue, rfl⟩ := Option.map_eq_some_iff.mp hstep
      have hroom : keys.length ≤ pendingCapacity := by
        simpa [hworking] using hstocked.queue.inHand
      obtain ⟨deleted, hdeleted, hdeletes⟩ := callDeleteKeys_cases hroom hcall
      have hinHand : ∀ key ∈ keys, key ∈ broker.doomed := by
        intro key hkey
        simp [Broker.doomed, Queue.waiting, hworking, hkey]
      refine ⟨.delete _ deleted _ _ _ _ ?_ hdeletes
        fun key => inFlight_removeInFlightBatch _ _,
        hstocked.queue.step hqueue, ?_⟩
      swap
      · intro batch hbatch
        rcases mem_lateAfter hbatch with hbefore | rfl
        · exact hstocked.late batch hbefore
        · exact hroom
      intro key hkey
      rw [List.mem_append, List.mem_append] at hkey
      rcases hkey with (hwaiting | hlate) | hmem
      · exact List.mem_append_left _ (waiting_step rfl hqueue key hwaiting)
      · obtain ⟨batch, hbatch, hmem⟩ := List.mem_flatten.mp hlate
        rcases mem_lateAfter hbatch with hbefore | rfl
        · exact List.mem_append_right _ (List.mem_flatten.mpr ⟨batch, hbefore, hmem⟩)
        · exact hinHand key hmem
      · exact hinHand key (hdeleted hmem)
  · cases hstep

theorem effect_applyLate {lib : Libraries Index} {backend : Backend}
    {broker next : Broker Index} {position : ℕ} {index : UInt64}
    (hstocked : Stocked broker)
    (hstep : step lib backend broker (.applyLate position index) = some next) :
    Effect lib broker (.applyLate position index) next ∧ Stocked next := by
  simp only [step] at hstep
  split at hstep
  · cases hstep
  · rename_i keys hlate
    obtain ⟨deletion, hcall, rfl⟩ := Option.map_eq_some_iff.mp hstep
    have hmem := List.mem_of_getElem? hlate
    obtain ⟨deleted, hdeleted, hdeletes⟩ :=
      raftDeleteKeys_cases (hstocked.late keys hmem) hcall
    refine ⟨.delete _ deleted _ _ _ _ ?_ hdeletes
      fun key => inFlight_removeInFlightBatch _ _, hstocked.queue,
      fun batch hbatch => hstocked.late batch ((List.eraseIdx_sublist _ _).mem hbatch)⟩
    intro key hkey
    rw [List.mem_append, List.mem_append] at hkey
    rcases hkey with (hwaiting | hothers) | hdeletedKey
    · exact List.mem_append_left _ hwaiting
    · exact List.mem_append_right _
        ((List.eraseIdx_sublist _ _).flatten.mem hothers)
    · exact List.mem_append_right _
        (List.mem_flatten.mpr ⟨keys, hmem, hdeleted hdeletedKey⟩)

theorem effect_of_step {lib : Libraries Index} {backend : Backend}
    {broker next : Broker Index} {action : Action Index} (hstocked : Stocked broker)
    (hstep : step lib backend broker action = some next) :
    Effect lib broker action next ∧ Stocked next := by
  cases action with
  | tick nowMs =>
      simp only [step] at hstep
      split_ifs at hstep with hlater
      cases hstep
      exact ⟨.tick nowMs hlater, hstocked.queue, hstocked.late⟩
  | publish batch nowMs =>
      cases backend with
      | raft => cases hstep
      | direct =>
          simp only [step] at hstep
          cases hstep
          exact ⟨.publish batch nowMs _ (keepsBut_publish rfl), hstocked.queue,
            hstocked.late⟩
  | apply entry =>
      simp only [step] at hstep
      split at hstep
      · rename_i hdelete hupdate
        cases hstep
        exact ⟨.apply entry _ (keepsBut_apply lib hdelete hupdate), hstocked.queue,
          hstocked.late⟩
      · cases hstep
  | register consumer =>
      simp only [step] at hstep
      split_ifs at hstep
      cases hstep
      exact ⟨.register consumer, hstocked.queue, hstocked.late⟩
  | unregister id =>
      cases hstep
      exact ⟨.unregister id, hstocked.queue, hstocked.late⟩
  | receive id =>
      cases hstep
      exact ⟨.receive id, hstocked.queue, hstocked.late⟩
  | ack consumer deliveryTag success =>
      cases success with
      | false =>
          cases hstep
          exact ⟨.nack consumer deliveryTag, hstocked.queue, hstocked.late⟩
      | true =>
          obtain ⟨queue, hqueue, rfl⟩ := Option.map_eq_some_iff.mp hstep
          have hfits := hstocked.queue.step hqueue
          cases RetryQueue.effect_of_step hqueue with
          | mark item hroom => exact ⟨.ack consumer deliveryTag, hfits, hstocked.late⟩
  | begin topic nowMs =>
      simp only [step] at hstep
      split at hstep
      · cases hstep
      · split_ifs at hstep with hreached
        cases hstep
        exact ⟨.begin topic nowMs hreached, hstocked.queue, hstocked.late⟩
  | check now =>
      simp only [step] at hstep
      split at hstep
      · rename_i hround
        cases hstep
        exact ⟨effect_check lib hround rfl now, stocked_check lib hstocked _ _ _ _⟩
      · cases hstep
  | dispatch order =>
      simp only [step] at hstep
      split at hstep
      · rename_i hround
        cases hstep
        exact ⟨.dispatch order _ _ _ hround rfl, hstocked.queue, hstocked.late⟩
      · cases hstep
  | track now =>
      simp only [step] at hstep
      split at hstep
      · rename_i hround
        cases hstep
        exact ⟨.track now _ _ hround rfl, hstocked.queue, hstocked.late⟩
      · cases hstep
  | scanError =>
      simp only [step] at hstep
      split at hstep
      · rename_i hround
        cases hstep
        exact ⟨.scanError _ hround, hstocked.queue, hstocked.late⟩
      · cases hstep
  | expire =>
      simp only [step] at hstep
      split at hstep
      · rename_i hround
        obtain ⟨queue, hqueue, rfl⟩ := Option.map_eq_some_iff.mp hstep
        have hfits := hstocked.queue.step hqueue
        cases RetryQueue.effect_of_step hqueue with
        | mark item hroom => exact ⟨.expire _ _ _ hround rfl, hfits, hstocked.late⟩
      · cases hstep
  | finish =>
      simp only [step] at hstep
      split at hstep
      · cases hstep
        exact ⟨.finish, hstocked.queue, hstocked.late⟩
      · cases hstep
  | drain =>
      obtain ⟨queue, hqueue, rfl⟩ := Option.map_eq_some_iff.mp hstep
      exact ⟨.requeue _ queue (waiting_step rfl hqueue),
        hstocked.queue.step hqueue, hstocked.late⟩
  | deleteKeys proposal => exact effect_deleteKeys hstocked hstep
  | reenqueue =>
      obtain ⟨queue, hqueue, rfl⟩ := Option.map_eq_some_iff.mp hstep
      exact ⟨.requeue _ queue (waiting_step rfl hqueue),
        hstocked.queue.step hqueue, hstocked.late⟩
  | notify =>
      simp only [step] at hstep
      split at hstep
      · rename_i key keys hnotifying
        obtain ⟨queue, hqueue, rfl⟩ := Option.map_eq_some_iff.mp hstep
        exact ⟨.notify key keys queue hnotifying (waiting_step rfl hqueue),
          hstocked.queue.step hqueue, hstocked.late⟩
      · cases hstep
  | applyLate position index => exact effect_applyLate hstocked hstep

/-- What every effect preserves under a guard holds at the end of every guarded
run. -/
theorem run_effects {lib : Libraries Index} {backend : Backend}
    {guard : Broker Index → Action Index → Prop} {Inv : Broker Index → Prop}
    (heffect : ∀ broker action next, Inv broker → guard broker action →
      Effect lib broker action next → Inv next)
    {start finish : Broker Index} {actions : List (Action Index)}
    (hstocked : Stocked start) (hstart : Inv start)
    (hmeets : Meets (step lib backend) guard start actions)
    (hrun : run (step lib backend) start actions = some finish) : Inv finish := by
  have hboth : ∀ broker action next, Stocked broker ∧ Inv broker →
      guard broker action → step lib backend broker action = some next →
        Stocked next ∧ Inv next := by
    intro broker action next hinv hguard hstep
    obtain ⟨hdoes, hnext⟩ := effect_of_step hinv.1 hstep
    exact ⟨hnext, heffect broker action next hinv.2 hguard hdoes⟩
  exact (run_invariant hboth ⟨hstocked, hstart⟩ hmeets hrun).2

/-! ## A small broker -/

/-- A message without delay and time to live, published at 5. -/
def orderMessage : StoredMessage Bytes := ⟨"orders", [9], 5, 0, 0, []⟩

def orderLibraries : Libraries Bytes :=
  tableLibraries (fun _ => 7) [([1], orderMessage)]

def orderKey : Bytes := eventKey 5 7 1

/-- A broker with a timeout of thirty seconds. -/
def orderBroker : Broker Bytes := .start ⟨0, valid_zero⟩ 30000000000 10

def publishOrder : Action Bytes := .publish ⟨[⟨"orders", [9], 0, 0, []⟩], .quorum⟩ 5

/-- A flush of one key. -/
def flushOnce : List (Action Bytes) := [.drain, .deleteKeys (.accepted 1), .notify]

end FutureQ.Rounds
