import FutureQ.Broker.Expiry
import FutureQ.Event.KeySpace

/-!
# A standalone broker over its restarts

A standalone broker may end at any moment and begin again on the database it left.  Its
consumers, its queues and its in-flight table are gone, and `NewEventRepository` reads the
last event ID back, which lags behind the counter of the process before whenever a publish
has failed.  The history goes on over the restarts.

`confirmed_message_lives` is the promise to a producer: each message of a batch that was
answered with success has a key of its own, that no message had before, and it stays under
this key through every restart until it expires or a client acknowledges it.
-/

namespace FutureQ.Lifetime

open FutureQ.ByteOrder
open FutureQ.GoRuntime
open FutureQ.OrderedStore
open FutureQ.RetryQueue
open FutureQ.Transition
open FutureQ.Storage
open FutureQ.Keys
open FutureQ.Repository
open FutureQ.Commands
open FutureQ.StateMachine
open FutureQ.Journal
open FutureQ.Replica
open FutureQ.Freshness
open FutureQ.KeySpace (Recorded)
open FutureQ.Producer
open FutureQ.WritePaths
open FutureQ.Deleter
open FutureQ.DueScan
open FutureQ.Consumers
open FutureQ.Dispatch
open FutureQ.Rounds
open FutureQ.Janitor
open FutureQ.Expiry (House Kept Representable Orderly)

variable {Index : Type}

/-- `restart` is the end of one process, at any moment, and the start of the next one on
the same database, with settings of its own. -/
inductive Action (Index : Type) where
  | house (action : Expiry.Action Index)
  | restart (bucketSize : TimeBucketSize) (inFlightTimeout : Duration) (nowMs : Int64)

def step (lib : Libraries Index) (house : House Index) :
    Action Index → Option (House Index)
  | .house action => Expiry.step lib .direct house action
  | .restart bucketSize inFlightTimeout nowMs =>
      match newEventRepository .pebble house.broker.sm.db bucketSize with
      | .error _ => none
      | .ok repo =>
          if house.broker.nowMs ≤ nowMs then
            some ⟨{ (Broker.start bucketSize inFlightTimeout nowMs : Broker Index) with
              sm := ⟨house.broker.sm.db, repo, 0⟩
              log := house.broker.log }, .resting⟩
          else none

/-- The items of the messages that can be serialised. -/
def publishItems (lib : Libraries Index) (repo : EventRepository)
    (batch : PublishBatch Index) (nowMs : Int64) : List StoreBatchItem :=
  batch.messages.filterMap fun msg =>
    (raftItem lib repo.bucketSize (storedMessage nowMs msg)).toOption

/-- The key that the event sent to a client. -/
def sentKeys : Event → List Bytes
  | .sent _ key => [key]
  | _ => []

/-- Serialised indexes are not taken for other records and the counter does not come round;
clients acknowledge what was sent; the range of a topic holds events; expiry times that are
looked at are representable. -/
def Proper (lib : Libraries Index) (house : House Index) : Action Index → Prop
  | .house (.broker (.publish batch nowMs)) =>
      (∀ item ∈ publishItems lib house.broker.sm.repo batch nowMs,
        ∀ idx ∈ item.indexes, Foreign idx) ∧
      house.broker.sm.repo.lastID.toNat + batch.messages.length < 2 ^ 64
  | .house (.broker (.ack _ deliveryTag _)) =>
      deliveryTag ∈ house.broker.log.flatMap sentKeys
  | .house (.broker (.begin topic nowMs)) =>
      ∀ entry ∈ dueScan house.broker.sm.db (lib.topicHash topic)
        (house.broker.sm.repo.bucketSize.bucket nowMs), entry.1.length = 24
  | .house (.broker (.check _)) => ∀ round ∈ house.broker.round,
      ∀ entry ∈ round.rest.head?, Representable lib entry
  | .house (.scan _) => ∀ entry ∈ house.broker.sm.db.toList, Representable lib entry
  | _ => True

instance instDecidableProper (lib : Libraries Index) (house : House Index) :
    (action : Action Index) → Decidable (Proper lib house action)
  | .house (.broker (.publish _ _)) =>
      inferInstanceAs (Decidable ((∀ item ∈ _, ∀ idx ∈ _, _) ∧ _))
  | .house (.broker (.ack _ _ _)) => inferInstanceAs (Decidable (_ ∈ _))
  | .house (.broker (.begin _ _)) => inferInstanceAs (Decidable (∀ entry ∈ _, _))
  | .house (.broker (.check _)) =>
      inferInstanceAs (Decidable (∀ round ∈ _, ∀ entry ∈ _, _))
  | .house (.scan _) => inferInstanceAs (Decidable (∀ entry ∈ _, _))
  | .house (.broker (.tick _)) | .house (.broker (.apply _))
  | .house (.broker (.register _)) | .house (.broker (.unregister _))
  | .house (.broker (.receive _)) | .house (.broker (.dispatch _))
  | .house (.broker (.track _)) | .house (.broker .scanError) | .house (.broker .expire)
  | .house (.broker .finish) | .house (.broker .drain) | .house (.broker (.deleteKeys _))
  | .house (.broker .reenqueue) | .house (.broker .notify)
  | .house (.broker (.applyLate _ _)) | .house .readClock | .house .mark | .house .rest
  | .restart _ _ _ => isTrue trivial

/-! ## Keys that have been issued -/

/-- An event key whose ID the recorded counter has reached. -/
def Known (counter : UInt64) (key : Bytes) : Prop :=
  key.length = 24 ∧ (eventIDOf key).toNat ≤ counter.toNat

theorem Known.mono {counter later : UInt64} {key : Bytes} (hknown : Known counter key)
    (hle : counter.toNat ≤ later.toNat) : Known later key :=
  ⟨hknown.1, hknown.2.trans hle⟩

def handKeys : Hand Index → List Bytes
  | .idle => []
  | .checked key _ => [key]
  | .sent key => [key]

def roundKeys (round : Round Index) : List Bytes :=
  round.rest.map Prod.fst ++ handKeys round.hand ++ round.expiredKeys

/-- The key that the event sent to a client, or that a client acknowledged. -/
def namedKeys : Event → List Bytes
  | .sent _ key => [key]
  | .acked _ key true => [key]
  | _ => []

/-- `counter` is the last ID that the database records, and no key beyond it is stored or
held by the deleter, the pass, the janitor or a client. -/
structure Issued (counter : UInt64) (marks : List Bytes) (broker : Broker Index) :
    Prop where
  record : Recorded broker.sm.db eventsLastIDKey counter
  behind : counter.toNat ≤ broker.sm.repo.lastID.toNat
  stored : ∀ key value, broker.sm.db[key]? = some value → key.length = 24 →
    Known counter key
  doomed : ∀ key ∈ broker.doomed, Known counter key
  round : ∀ round ∈ broker.round, ∀ key ∈ roundKeys round, Known counter key
  marks : ∀ key ∈ marks, Known counter key
  named : ∀ event ∈ broker.log, ∀ key ∈ namedKeys event, Known counter key
  late : broker.late = []

section Issued

variable {lib : Libraries Index} {counter : UInt64} {marks : List Bytes}
variable {broker next : Broker Index}

theorem issued_start (bucketSize : TimeBucketSize) (inFlightTimeout : Duration)
    (nowMs : Int64) :
    Issued 0 [] (Broker.start bucketSize inFlightTimeout nowMs : Broker Index) where
  record := .inr ⟨Std.ExtTreeMap.getElem?_empty, rfl⟩
  behind := Nat.zero_le _
  stored key value hvalue := by
    change (∅ : DB)[key]? = some value at hvalue
    rw [Std.ExtTreeMap.getElem?_empty] at hvalue
    cases hvalue
  doomed _ hkey := absurd hkey List.not_mem_nil
  round _ hround := by cases hround
  marks _ hkey := absurd hkey List.not_mem_nil
  named _ hevent := absurd hevent List.not_mem_nil
  late := rfl

/-- Events that name no key leave the named keys alone. -/
theorem Issued.named_append (hissued : Issued counter marks broker) {events : List Event}
    (hevents : ∀ event ∈ events, ∀ key ∈ namedKeys event, Known counter key) :
    ∀ event ∈ events ++ broker.log, ∀ key ∈ namedKeys event, Known counter key := by
  intro event hevent
  rcases List.mem_append.mp hevent with hnew | hold
  · exact hevents event hnew
  · exact hissued.named event hold

theorem Issued.named_cons (hissued : Issued counter marks broker) {event : Event}
    (hevent : ∀ key ∈ namedKeys event, Known counter key) :
    ∀ other ∈ event :: broker.log, ∀ key ∈ namedKeys other, Known counter key :=
  List.forall_mem_cons.mpr ⟨hevent, hissued.named⟩

theorem Issued.known_of_sent (hissued : Issued counter marks broker) {key : Bytes}
    (hsent : key ∈ broker.log.flatMap sentKeys) : Known counter key := by
  obtain ⟨event, hevent, hkey⟩ := List.mem_flatMap.mp hsent
  cases event with
  | sent consumer other => exact hissued.named _ hevent key hkey
  | _ => exact absurd hkey List.not_mem_nil

/-- A step inside a pass that takes up no other key. -/
theorem Issued.proceed (hissued : Issued counter marks broker) {round after : Round Index}
    (hround : broker.round = some round) (dispatcher : Dispatcher)
    (hkeys : ∀ key ∈ roundKeys after, key ∈ roundKeys round) :
    Issued counter marks { broker with dispatcher, round := some after } := by
  refine { hissued with round := ?_ }
  rintro _ ⟨⟩ key hkey
  exact hissued.round round hround key (hkeys key hkey)

theorem Issued.mark (hissued : Issued counter marks broker) {key : Bytes}
    (hknown : Known counter key) :
    Issued counter marks { broker with queue := { broker.queue with
      pending := broker.queue.pending ++ [key] } } := by
  refine { hissued with doomed := fun other hother => ?_ }
  rcases mem_doomed_mark hother with rfl | hbefore
  · exact hknown
  · exact hissued.doomed other hbefore

theorem Issued.requeue (hissued : Issued counter marks broker) {queue : Queue Bytes}
    (hwaiting : ∀ key ∈ queue.waiting, key ∈ broker.queue.waiting) :
    Issued counter marks { broker with queue } :=
  { hissued with
    doomed := fun key hkey =>
      hissued.doomed key (mem_doomed_of_waiting hwaiting key hkey) }

/-- Whatever the event key, its ID is beyond every known one. -/
theorem not_known_of_mem_storeKeys {lastID : UInt64} {items : List StoreBatchItem}
    (hbehind : counter.toNat ≤ lastID.toNat) (hbound : lastID.toNat + items.length < 2 ^ 64)
    {key : Bytes} (hkey : key ∈ storeKeys lastID items) : ¬ Known counter key := by
  rintro ⟨-, hid⟩
  obtain ⟨index, hindex, heq⟩ := (numberedFrom_storeKeys lastID items).exists_index hkey
  rw [length_storeKeys] at hindex
  rw [heq, toNat_advance (by omega)] at hid
  omega

theorem known_of_mem_storeKeys {lastID : UInt64} {items : List StoreBatchItem}
    (hbound : lastID.toNat + items.length < 2 ^ 64) {key : Bytes} (hlength : key.length = 24)
    (hkey : key ∈ storeKeys lastID items) : Known (advance lastID items.length) key := by
  obtain ⟨index, hindex, heq⟩ := (numberedFrom_storeKeys lastID items).exists_index hkey
  rw [length_storeKeys] at hindex
  refine ⟨hlength, ?_⟩
  rw [heq, toNat_advance (by omega), toNat_advance hbound]
  omega

/-- A store that writes anything records the ID of its last message, whatever was recorded
before. -/
theorem recorded_of_store (db : DB) (lastID : UInt64) (item : StoreBatchItem)
    {items : List StoreBatchItem}
    (hforeign : ∀ other ∈ item :: items, ∀ idx ∈ other.indexes, Foreign idx) :
    Recorded (commit db (storeOps lastID (item :: items))) eventsLastIDKey
      (advance lastID (items.length + 1)) := by
  obtain ⟨hitem, hrest⟩ := List.forall_mem_cons.mp hforeign
  rw [storeOps, commit_append, advance_succ]
  refine KeySpace.recorded_storeOps (.inl ?_) (KeySpace.apart_of_foreign hrest)
  rw [eventOps, commit_cons, getElem?_commit_of_untouched]
  · simp [BatchOp.apply]
  · intro op hop heq
    rcases List.mem_cons.mp hop with rfl | hindex
    · exact eventsLastIDKey_ne_eventKey _ _ _ heq.symm
    · obtain ⟨idx, hidx, rfl⟩ := List.mem_map.mp hindex
      exact (hitem idx hidx).2.1 heq

/-- A write, with what it records. -/
theorem Issued.rewrite (hissued : Issued counter marks broker) {sm : EventStateMachine}
    {later : UInt64} (hle : counter.toNat ≤ later.toNat)
    (hrecord : Recorded sm.db eventsLastIDKey later)
    (hbehind : later.toNat ≤ sm.repo.lastID.toNat)
    (hstored : ∀ key value, sm.db[key]? = some value → key.length = 24 →
      Known later key) :
    Issued later marks (broker.rewrite lib sm) where
  record := hrecord
  behind := hbehind
  stored := hstored
  doomed key hkey := (hissued.doomed key hkey).mono hle
  round round hround key hkey := (hissued.round round hround key hkey).mono hle
  marks key hkey := (hissued.marks key hkey).mono hle
  named := by
    have hlosses : ∀ event ∈ losses lib broker.nowMs broker.sm.db sm.db,
        ∀ key ∈ namedKeys event, Known counter key := by
      intro event hevent key hkey
      obtain ⟨other, value, msg, -, -, -, -, rfl⟩ := mem_losses hevent
      exact absurd hkey List.not_mem_nil
    intro event hevent key hkey
    exact (hissued.named_append hlosses event hevent key hkey).mono hle
  late := hissued.late

theorem publishItems_eq {repo : EventRepository} {batch : PublishBatch Index}
    {nowMs : Int64} {items : List StoreBatchItem}
    (hitems : List.Forall₂ (Becomes lib repo.bucketSize nowMs) batch.messages items) :
    publishItems lib repo batch nowMs = items :=
  filterMap_toOption (hitems.imp fun _ _ hitem => hitem.2.2)

/-- A publish moves the record up to its last message, or leaves it where it is. -/
theorem Issued.publish (hissued : Issued counter marks broker) {batch : PublishBatch Index}
    {nowMs : Int64}
    (hforeign : ∀ item ∈ publishItems lib broker.sm.repo batch nowMs,
      ∀ idx ∈ item.indexes, Foreign idx)
    (hbound : broker.sm.repo.lastID.toNat + batch.messages.length < 2 ^ 64)
    (hstep : Rounds.step lib .direct broker (.publish batch nowMs) = some next) :
    ∃ later : UInt64, counter.toNat ≤ later.toNat ∧ Issued later marks next := by
  rcases hprocess : processStandaloneBatch lib .pebble .none broker.sm.repo broker.sm.db
    batch nowMs with ⟨outcome, repo, db⟩
  simp only [Rounds.step, hprocess] at hstep
  cases hstep
  have hbehind := hissued.behind
  rcases processStandaloneBatch_cases hprocess with
    ⟨err, -, rfl, count, hcount, rfl⟩ | ⟨-, items, hitems, rfl, rfl⟩
  · refine ⟨counter, le_rfl, hissued.rewrite le_rfl hissued.record ?_ hissued.stored⟩
    change counter.toNat ≤ (advance broker.sm.repo.lastID count).toNat
    rw [toNat_advance (by omega)]
    omega
  · rw [publishItems_eq hitems] at hforeign
    rw [hitems.length_eq] at hbound
    cases items with
    | nil =>
        refine ⟨counter, le_rfl, hissued.rewrite le_rfl hissued.record ?_ hissued.stored⟩
        simpa [advance] using hbehind
    | cons item items =>
        have hle : counter.toNat ≤
            (advance broker.sm.repo.lastID (item :: items).length).toNat := by
          rw [toNat_advance hbound]
          omega
        refine ⟨_, hle, hissued.rewrite hle
          (recorded_of_store broker.sm.db broker.sm.repo.lastID item hforeign) le_rfl
          fun key value hvalue hlength => ?_⟩
        rcases getElem?_commit_eq_some hvalue with hbefore | hset
        · exact (hissued.stored key value hbefore hlength).mono hle
        · rcases mem_storeOps hset with ⟨id, rfl, -⟩ | ⟨hkey, -⟩ | ⟨-, other, hother, hidx⟩
          · exact absurd rfl (eventsLastIDKey_ne_of_length hlength)
          · exact known_of_mem_storeKeys hbound hlength hkey
          · exact absurd hlength (hforeign other hother key hidx).1

/-- The counters stay as they are. -/
structure KeepsCounters (broker next : Broker Index) : Prop where
  repo : next.sm.repo = broker.sm.repo
  record : next.sm.db[eventsLastIDKey]? = broker.sm.db[eventsLastIDKey]?
  late : next.late = broker.late

theorem KeepsCounters.of_eq (hsm : next.sm = broker.sm) (hlate : next.late = broker.late) :
    KeepsCounters broker next :=
  ⟨by rw [hsm], by rw [hsm], hlate⟩

theorem KeepsCounters.of_enqueue {changed : Broker Index} {event : RetryQueue.Event Bytes}
    (henqueue : changed.enqueue event = some next) (hkeeps : KeepsCounters broker changed) :
    KeepsCounters broker next := by
  obtain ⟨queue, -, rfl⟩ := Option.map_eq_some_iff.mp henqueue
  exact ⟨hkeeps.repo, hkeeps.record, hkeeps.late⟩

theorem keepsCounters_deleteKeys {sm : EventStateMachine} {keys : List Bytes}
    (hkeys : ∀ key ∈ keys, key.length = 24) {proposal : Proposal} {deletion : Deletion}
    (hcall : callDeleteKeys .direct sm keys proposal = some deletion) :
    deletion.sm.repo = sm.repo ∧
      deletion.sm.db[eventsLastIDKey]? = sm.db[eventsLastIDKey]? := by
  cases proposal with
  | accepted index =>
      simp only [callDeleteKeys, directDeleteKeys_none] at hcall
      cases hcall
      exact ⟨rfl, getElem?_lastID_delete hkeys sm.db⟩
  | rejected =>
      cases hcall
      exact ⟨rfl, rfl⟩
  | lost index => cases hcall

/-- On a standalone broker only publishes move the counters. -/
theorem keepsCounters_of_step {action : Rounds.Action Index}
    (hissued : Issued counter marks broker)
    (hpublish : ∀ batch nowMs, action ≠ .publish batch nowMs)
    (hstep : Rounds.step lib .direct broker action = some next) :
    KeepsCounters broker next := by
  cases action with
  | publish batch nowMs => exact absurd rfl (hpublish batch nowMs)
  | deleteKeys proposal =>
      simp only [Rounds.step] at hstep
      split at hstep
      · rename_i keys hworking
        split at hstep
        · cases hstep
        · rename_i deletion hcall
          have hkeys : ∀ key ∈ keys, key.length = 24 := fun key hkey =>
            (hissued.doomed key (by simp [Broker.doomed, Queue.waiting, hworking, hkey])).1
          obtain ⟨hrepo, hrecord⟩ := keepsCounters_deleteKeys hkeys hcall
          exact .of_enqueue hstep ⟨hrepo, hrecord, rfl⟩
      · cases hstep
  | applyLate position index =>
      simp only [Rounds.step, hissued.late, List.getElem?_nil] at hstep
      cases hstep
  | ack consumer deliveryTag success =>
      cases success with
      | false =>
          cases hstep
          exact .of_eq rfl rfl
      | true => exact .of_enqueue hstep (.of_eq rfl rfl)
  | drain => exact .of_enqueue hstep (.of_eq rfl rfl)
  | reenqueue => exact .of_enqueue hstep (.of_eq rfl rfl)
  | check now =>
      simp only [Rounds.step] at hstep
      split at hstep
      · cases hstep
        rw [Broker.check]
        split <;> exact .of_eq rfl rfl
      · cases hstep
  | begin topic nowMs =>
      simp only [Rounds.step] at hstep
      split at hstep
      · cases hstep
      · split_ifs at hstep
        cases hstep
        exact .of_eq rfl rfl
  | tick nowMs =>
      simp only [Rounds.step] at hstep
      split_ifs at hstep
      cases hstep
      exact .of_eq rfl rfl
  | register consumer =>
      simp only [Rounds.step] at hstep
      split_ifs at hstep
      cases hstep
      exact .of_eq rfl rfl
  | unregister id =>
      cases hstep
      exact .of_eq rfl rfl
  | receive id =>
      cases hstep
      exact .of_eq rfl rfl
  | apply entry => cases hstep
  | expire =>
      simp only [Rounds.step] at hstep
      split at hstep
      · exact .of_enqueue hstep (.of_eq rfl rfl)
      · cases hstep
  | notify =>
      simp only [Rounds.step] at hstep
      split at hstep
      · exact .of_enqueue hstep (.of_eq rfl rfl)
      · cases hstep
  | _ =>
      simp only [Rounds.step] at hstep
      split at hstep
      · cases hstep
        exact .of_eq rfl rfl
      · cases hstep

/-- A delete command takes away what is stored and brings nothing. -/
theorem Issued.delete (hissued : Issued counter marks broker) {keys : List Bytes}
    {sm : EventStateMachine} {dispatcher : Dispatcher} {queue : Queue Bytes}
    {late : List (List Bytes)}
    (hdoomed : ∀ key ∈ queue.waiting ++ late.flatten ++ keys, key ∈ broker.doomed)
    (hdeletes : Deletes keys broker.sm.db sm.db)
    (hkeeps : KeepsCounters broker { broker.rewrite lib sm with dispatcher, queue, late }) :
    Issued counter marks { broker.rewrite lib sm with dispatcher, queue, late } := by
  have hrecord : Recorded sm.db eventsLastIDKey counter := by
    have hsame : sm.db[eventsLastIDKey]? = broker.sm.db[eventsLastIDKey]? := hkeeps.record
    rw [Recorded, hsame]
    exact hissued.record
  have hbehind : counter.toNat ≤ sm.repo.lastID.toNat := by
    have hsame : sm.repo = broker.sm.repo := hkeeps.repo
    rw [hsame]
    exact hissued.behind
  have hstored : ∀ key value, sm.db[key]? = some value → key.length = 24 →
      Known counter key := by
    intro key value hvalue hlength
    by_cases hkey : key ∈ keys
    · rw [hdeletes.gone key hkey hlength] at hvalue
      cases hvalue
    · rw [hdeletes.kept key hlength hkey] at hvalue
      exact hissued.stored key value hvalue hlength
  have hrewritten : Issued counter marks (broker.rewrite lib sm) :=
    hissued.rewrite le_rfl hrecord hbehind hstored
  exact { hrewritten with
    doomed := fun key hkey =>
      hissued.doomed key (hdoomed key (List.mem_append_left _ hkey))
    late := hkeeps.late.trans hissued.late }

theorem Issued.brokerStep {action : Rounds.Action Index} {janitor : Expiry.Phase}
    (hstocked : Stocked broker) (hissued : Issued counter marks broker)
    (hproper : Proper lib ⟨broker, janitor⟩ (.house (.broker action)))
    (hstep : Rounds.step lib .direct broker action = some next) :
    ∃ later : UInt64, counter.toNat ≤ later.toNat ∧ Issued later marks next := by
  by_cases hpublish : ∃ batch nowMs, action = .publish batch nowMs
  · obtain ⟨batch, nowMs, rfl⟩ := hpublish
    exact hissued.publish hproper.1 hproper.2 hstep
  push Not at hpublish
  have hkeeps := keepsCounters_of_step hissued hpublish hstep
  refine ⟨counter, le_rfl, ?_⟩
  cases (Rounds.effect_of_step hstocked hstep).1 with
  | tick nowMs hlater => exact { hissued with }
  | publish batch nowMs sm hkept => exact absurd rfl (hpublish batch nowMs)
  | apply entry sm hkept => cases hstep
  | register consumer => exact { hissued with }
  | unregister id =>
      refine { hissued with named := hissued.named_append fun event hevent key hkey => ?_ }
      obtain ⟨gone, -, rfl⟩ := List.mem_map.mp hevent
      exact absurd hkey List.not_mem_nil
  | receive id => exact { hissued with }
  | nack consumer deliveryTag =>
      exact { hissued with
        named := hissued.named_cons fun _ hkey => absurd hkey List.not_mem_nil }
  | ack consumer deliveryTag =>
      have hknown := hissued.known_of_sent hproper
      exact { hissued.mark hknown with
        named := hissued.named_cons fun key hkey => List.mem_singleton.mp hkey ▸ hknown }
  | begin topic nowMs hreached =>
      refine { hissued with round := ?_ }
      rintro _ ⟨⟩ key hkey
      have hscanned : key ∈ (dueScan broker.sm.db (lib.topicHash topic)
          (broker.sm.repo.bucketSize.bucket nowMs)).map Prod.fst := by
        simpa [roundKeys, handKeys] using hkey
      obtain ⟨entry, hentry, rfl⟩ := List.mem_map.mp hscanned
      exact hissued.stored entry.1 entry.2 (mem_scan_iff.mp hentry).1 (hproper entry hentry)
  | skip now round key value rest hround hrest =>
      refine hissued.proceed hround _ fun other hother => ?_
      simp only [roundKeys, hrest, List.map_cons, List.mem_append, List.mem_cons] at hother ⊢
      tauto
  | expired now round key value rest msg hround hrest hdecodes hexpired =>
      refine hissued.proceed hround _ fun other hother => ?_
      simp only [roundKeys, hrest, List.map_cons, List.mem_append, List.mem_cons,
        List.not_mem_nil, or_false] at hother ⊢
      tauto
  | deliverable now round key value rest msg hround hrest hdecodes halive =>
      refine hissued.proceed hround _ fun other hother => ?_
      simp only [roundKeys, handKeys, hrest, List.map_cons, List.mem_append, List.mem_cons,
        List.not_mem_nil, or_false] at hother ⊢
      tauto
  | dispatch order round key msg hround hhand =>
      have hkeys := hissued.round round hround
      have hknown : Known counter key :=
        hkeys key (by simp [roundKeys, hhand, handKeys])
      refine { hissued with round := ?_, named := ?_ }
      · rintro _ ⟨⟩ other hother
        refine hkeys other ?_
        simp only [roundKeys, hhand, List.mem_append] at hother ⊢
        refine hother.imp_left (Or.imp_right fun hhanded => ?_)
        split_ifs at hhanded
        · exact absurd hhanded List.not_mem_nil
        · exact hhanded
      · intro event hevent other hother
        rcases List.mem_append.mp hevent with hsent | hrest
        · obtain ⟨consumer, -, rfl⟩ := List.mem_map.mp hsent
          exact List.mem_singleton.mp hother ▸ hknown
        · rcases List.mem_cons.mp hrest with rfl | hbefore
          · exact absurd hother List.not_mem_nil
          · exact hissued.named event hbefore other hother
  | track now round key hround hhand =>
      refine hissued.proceed hround _ fun other hother => ?_
      simp only [roundKeys, handKeys, List.mem_append, List.not_mem_nil, or_false] at hother ⊢
      tauto
  | scanError round hround =>
      refine hissued.proceed hround _ fun other hother => ?_
      simp only [roundKeys, List.map_nil, List.nil_append, List.mem_append] at hother ⊢
      tauto
  | expire round key keys hround hkeys =>
      have hknown : Known counter key :=
        hissued.round round hround key (by simp [roundKeys, hkeys])
      refine (hissued.mark hknown).proceed hround _ fun other hother => ?_
      simp only [roundKeys, hkeys, List.mem_append, List.mem_cons] at hother ⊢
      tauto
  | finish => exact { hissued with round := by rintro _ ⟨⟩ }
  | requeue action queue hwaiting => exact hissued.requeue hwaiting
  | delete action keys sm dispatcher queue late hdoomed hdeletes hforgets =>
      exact hissued.delete hdoomed hdeletes hkeeps
  | notify key keys queue hnotifying hwaiting =>
      exact { hissued.requeue hwaiting with
        named := hissued.named_cons fun _ hkey => absurd hkey List.not_mem_nil }

/-- A key beyond the counter is nowhere. -/
theorem Issued.unused (hissued : Issued counter marks broker) {key : Bytes}
    (hlength : key.length = 24) (hnew : ¬ Known counter key) :
    AtLeastOnce.Unused broker key ∧ key ∉ marks := by
  refine ⟨⟨?_, fun hkey => hnew (hissued.doomed key hkey), fun round hround hkey => ?_⟩,
    fun hkey => hnew (hissued.marks key hkey)⟩
  · cases hvalue : broker.sm.db[key]? with
    | none => rfl
    | some value => exact absurd (hissued.stored key value hvalue hlength) hnew
  · refine hnew (hissued.round round hround key ?_)
    simp only [roundKeys, List.mem_append] at hkey ⊢
    tauto

/-- The event keys that a publish writes are new. -/
theorem Issued.not_known_of_written (hissued : Issued counter marks broker)
    {batch : PublishBatch Index} {nowMs : Int64}
    (hforeign : ∀ item ∈ publishItems lib broker.sm.repo batch nowMs,
      ∀ idx ∈ item.indexes, Foreign idx)
    (hbound : broker.sm.repo.lastID.toNat + batch.messages.length < 2 ^ 64) {key : Bytes}
    (hkey : key ∈ written lib broker.sm (.publish batch nowMs)) (hlength : key.length = 24) :
    ¬ Known counter key := by
  obtain ⟨op, hop, rfl⟩ := List.mem_map.mp hkey
  have hcount : (publishItems lib broker.sm.repo batch nowMs).length ≤
      batch.messages.length := List.length_filterMap_le _ _
  rcases key_of_mem_storeOps hop with hrecord | hstored | ⟨item, hitem, hidx⟩
  · exact absurd hrecord.symm (eventsLastIDKey_ne_of_length hlength)
  · have hroom : broker.sm.repo.lastID.toNat +
        (publishItems lib broker.sm.repo batch nowMs).length < 2 ^ 64 := by omega
    exact not_known_of_mem_storeKeys hissued.behind hroom hstored
  · exact absurd hlength (hforeign item hitem op.key hidx).1

end Issued

/-! ## Whole lives -/

section Lives

variable {lib : Libraries Index} {base : UInt64} {house next : House Index}

/-- What holds at every moment of every life after `base` was recorded. -/
structure Alive (lib : Libraries Index) (base : UInt64) (house : House Index) : Prop where
  kept : Kept lib house
  issued : ∃ counter : UInt64, base.toNat ≤ counter.toNat ∧
    Issued counter house.janitor.keys house.broker

theorem Alive.orderly (halive : Alive lib base house) {action : Expiry.Action Index}
    (hproper : Proper lib house (.house action))
    (hstep : Expiry.step lib .direct house action = some next) :
    Orderly lib house action := by
  obtain ⟨counter, -, hissued⟩ := halive.issued
  cases action with
  | broker action =>
      cases action with
      | publish batch nowMs =>
          intro key hkey hlength
          exact hissued.unused hlength
            (hissued.not_known_of_written hproper.1 hproper.2 hkey hlength)
      | apply entry => cases hstep
      | check now => exact hproper
      | _ => trivial
  | scan fails => exact hproper
  | _ => trivial

/-- What a step of the house does to its broker: a step of the broker's own, nothing while
the janitor looks at stored events, or a call of `MarkDeleted` by the janitor. -/
inductive HouseEffect (lib : Libraries Index) (house : House Index) :
    Expiry.Action Index → House Index → Prop where
  | broker (action : Rounds.Action Index) (after : Broker Index)
      (hafter : Rounds.step lib .direct house.broker action = some after) :
      HouseEffect lib house (.broker action) { house with broker := after }
  | look (action : Expiry.Action Index) (janitor : Expiry.Phase)
      (hkeys : ∀ key ∈ janitor.keys, key.length = 24 ∧
        ∃ value, house.broker.sm.db[key]? = some value) :
      HouseEffect lib house action { house with janitor }
  | mark (key : Bytes) (keys : List Bytes) (hkeys : house.janitor.keys = key :: keys) :
      HouseEffect lib house .mark
        ⟨{ house.broker with queue := { house.broker.queue with
          pending := house.broker.queue.pending ++ [key] } }, .marking keys⟩

theorem houseEffect_of_step {action : Expiry.Action Index}
    (hstep : Expiry.step lib .direct house action = some next) :
    HouseEffect lib house action next := by
  obtain ⟨broker, janitor⟩ := house
  cases action with
  | broker action =>
      obtain ⟨after, hafter, rfl⟩ := Option.map_eq_some_iff.mp hstep
      exact .broker action after hafter
  | readClock =>
      cases janitor with
      | resting =>
          cases hstep
          exact .look _ _ fun _ hkey => absurd hkey List.not_mem_nil
      | clocked nowMs => cases hstep
      | marking keys => cases hstep
  | scan fails =>
      cases janitor with
      | resting => cases hstep
      | clocked nowMs =>
          cases hstep
          refine .look _ _ fun key hkey => ?_
          cases fails with
          | true => exact absurd hkey List.not_mem_nil
          | false =>
              obtain ⟨hlength, value, hvalue, -⟩ := Expiry.mem_sweep_iff.mp hkey
              exact ⟨hlength, value, hvalue⟩
      | marking keys => cases hstep
  | mark =>
      match janitor, hstep with
      | .marking (key :: keys), hstep =>
          obtain ⟨marked, hmarked, rfl⟩ := Option.map_eq_some_iff.mp hstep
          obtain ⟨queue, hqueue, rfl⟩ := Option.map_eq_some_iff.mp hmarked
          cases RetryQueue.effect_of_step hqueue with
          | mark item hroom => exact .mark key keys rfl
  | rest =>
      match janitor, hstep with
      | .marking [], hstep =>
          cases hstep
          exact .look _ _ fun _ hkey => absurd hkey List.not_mem_nil

theorem Issued.houseStep {counter : UInt64} (hstocked : Stocked house.broker)
    (hissued : Issued counter house.janitor.keys house.broker)
    {action : Expiry.Action Index} (hproper : Proper lib house (.house action))
    (hstep : Expiry.step lib .direct house action = some next) :
    ∃ later : UInt64, counter.toNat ≤ later.toNat ∧
      Issued later next.janitor.keys next.broker := by
  cases houseEffect_of_step hstep with
  | broker action after hafter => exact hissued.brokerStep hstocked hproper hafter
  | look action janitor hkeys =>
      refine ⟨counter, le_rfl, { hissued with marks := fun key hkey => ?_ }⟩
      obtain ⟨hlength, value, hvalue⟩ := hkeys key hkey
      exact hissued.stored key value hvalue hlength
  | mark key keys hkeys =>
      have hmarks := hissued.marks
      rw [hkeys] at hmarks
      obtain ⟨hhead, htail⟩ := List.forall_mem_cons.mp hmarks
      exact ⟨counter, le_rfl, { hissued.mark hhead with marks := htail }⟩

/-- The next process reads the recorded counter back. -/
theorem newEventRepository_of_recorded {db : DB} {counter : UInt64}
    (hrecord : Recorded db eventsLastIDKey counter) (bucketSize : TimeBucketSize) :
    newEventRepository .pebble db bucketSize = .ok ⟨counter, bucketSize⟩ := by
  have hread : readCounter .pebble db eventsLastIDKey 0 = .ok counter := by
    rcases hrecord with hsome | ⟨hnone, rfl⟩
    · exact readCounter_of_some hsome
    · exact readCounter_of_none hnone
  simp only [newEventRepository, hread, ok_bind]
  rfl

/-- Whoever held a key is gone after a restart, except the clients. -/
theorem Alive.restart (halive : Alive lib base house) {bucketSize : TimeBucketSize}
    {inFlightTimeout : Duration} {nowMs : Int64}
    (hstep : step lib house (.restart bucketSize inFlightTimeout nowMs) = some next) :
    Alive lib base next := by
  obtain ⟨counter, hbase, hissued⟩ := halive.issued
  simp only [step, newEventRepository_of_recorded hissued.record] at hstep
  split_ifs at hstep
  cases hstep
  have hstocked : Stocked
      (Broker.start bucketSize inFlightTimeout nowMs : Broker Index) := stocked_start _ _ _
  refine ⟨⟨⟨hstocked.queue, hstocked.late⟩,
    ⟨halive.kept.sound.justified, ?_, by rintro _ ⟨⟩⟩, by rintro _ ⟨⟩⟩, counter, hbase, ?_⟩
  · rintro key (hdoomed | ⟨round, hround, -⟩ | hmark)
    · exact absurd hdoomed List.not_mem_nil
    · cases hround
    · exact absurd hmark List.not_mem_nil
  · exact {
      record := hissued.record
      behind := le_rfl
      stored := hissued.stored
      doomed := fun _ hkey => absurd hkey List.not_mem_nil
      round := by rintro _ ⟨⟩
      marks := fun _ hkey => absurd hkey List.not_mem_nil
      named := hissued.named
      late := rfl }

theorem Alive.step (halive : Alive lib base house) {action : Action Index}
    (hproper : Proper lib house action) (hstep : Lifetime.step lib house action = some next) :
    Alive lib base next := by
  cases action with
  | house action =>
      obtain ⟨counter, hbase, hissued⟩ := halive.issued
      obtain ⟨later, hle, hlater⟩ := hissued.houseStep halive.kept.stocked hproper hstep
      exact ⟨halive.kept.step (halive.orderly hproper hstep) hstep, later,
        hbase.trans hle, hlater⟩
  | restart bucketSize inFlightTimeout nowMs => exact halive.restart hstep

theorem alive_start (lib : Libraries Index) (bucketSize : TimeBucketSize)
    (inFlightTimeout : Duration) (nowMs : Int64) :
    Alive lib 0 (House.start bucketSize inFlightTimeout nowMs : House Index) where
  kept := ⟨stocked_start _ _ _, Expiry.sound_start lib _ _ _, by rintro _ ⟨⟩⟩
  issued := ⟨0, le_rfl, issued_start bucketSize inFlightTimeout nowMs⟩

theorem Alive.run (halive : Alive lib base house) {actions : List (Action Index)}
    (hproper : Meets (Lifetime.step lib) (Proper lib) house actions)
    (hrun : Transition.run (Lifetime.step lib) house actions = some next) :
    Alive lib base next :=
  run_invariant (fun _ _ _ halive hproper hstep => halive.step hproper hstep) halive hproper
    hrun

/-- At no moment of the run, its end included, is anything stored under the key. -/
def NeverStored (lib : Libraries Index) (start : House Index) (actions : List (Action Index))
    (key : Bytes) : Prop :=
  ∀ earlier house, earlier <+: actions →
    Transition.run (Lifetime.step lib) start earlier = some house →
      house.broker.sm.db[key]? = none

/-- The recorded counter never falls, so a key that is beyond it now always was. -/
theorem Alive.neverStored {start : House Index} (halive : Alive lib base start)
    {actions : List (Action Index)}
    (hproper : Meets (Lifetime.step lib) (Proper lib) start actions)
    (hrun : Transition.run (Lifetime.step lib) start actions = some house) {key : Bytes}
    (hlength : key.length = 24)
    (hnew : ∀ counter, Issued counter house.janitor.keys house.broker → ¬ Known counter key) :
    NeverStored lib start actions key := by
  rintro earlier middle ⟨later, rfl⟩ hmiddle
  obtain ⟨hproperEarlier, hproperLater⟩ := meets_append hproper
  obtain ⟨hkept, counter, -, hissued⟩ := halive.run hproperEarlier hmiddle
  rw [run_append_of_run hmiddle] at hrun
  have hsince : Alive lib counter middle := ⟨hkept, counter, le_rfl, hissued⟩
  obtain ⟨-, recorded, hle, hrecorded⟩ := hsince.run (hproperLater middle hmiddle) hrun
  have hunknown : ¬ Known counter key := fun hknown => hnew recorded hrecorded (hknown.mono hle)
  exact (hissued.unused hlength hunknown).1.1

/-! ## What becomes of a message -/

/-- The history grows, and a message that is not there any more was removed. -/
def Accounts (lib : Libraries Index) (broker next : Broker Index) : Prop :=
  ∃ events, next.log = events ++ broker.log ∧
    ∀ key value msg, key.length = 24 → broker.sm.db[key]? = some value →
      lib.unmarshal value = some msg →
        next.sm.db[key]? = some value ∨ ∃ expired, .removed key expired ∈ events

theorem Accounts.of_sm {broker next : Broker Index} (events : List Event)
    (hlog : next.log = events ++ broker.log) (hsm : next.sm = broker.sm) :
    Accounts lib broker next :=
  ⟨events, hlog, fun _ _ _ _ hvalue _ => .inl (hsm ▸ hvalue)⟩

theorem accounts_rewrite {broker next : Broker Index} {sm : EventStateMachine}
    (hlog : next.log = losses lib broker.nowMs broker.sm.db sm.db ++ broker.log)
    (hsm : next.sm = sm) : Accounts lib broker next := by
  refine ⟨_, hlog, fun key value msg hlength hvalue hmsg => ?_⟩
  rw [hsm]
  by_cases hkept : sm.db[key]? = some value
  · exact .inl hkept
  · refine .inr ⟨decide (Rounds.Expired msg broker.nowMs), List.mem_filterMap.mpr
      ⟨(key, value), Std.ExtTreeMap.mem_toList_iff_getElem?_eq_some.mpr hvalue, ?_⟩⟩
    rw [if_pos ⟨hlength, hkept⟩, hmsg]
    rfl

theorem accounts_of_effect {broker next : Broker Index} {action : Rounds.Action Index}
    (heffect : Rounds.Effect lib broker action next) : Accounts lib broker next := by
  cases heffect with
  | publish batch nowMs sm hkept => exact accounts_rewrite rfl rfl
  | apply entry sm hkept => exact accounts_rewrite rfl rfl
  | delete action keys sm dispatcher queue late hdoomed hdeletes hforgets =>
      exact accounts_rewrite rfl rfl
  | unregister id => exact .of_sm _ rfl rfl
  | nack consumer deliveryTag => exact .of_sm [_] rfl rfl
  | ack consumer deliveryTag => exact .of_sm [_] rfl rfl
  | dispatch order round key msg hround hhand =>
      exact .of_sm _ (List.append_cons _ _ _) rfl
  | notify key keys queue hnotifying hwaiting => exact .of_sm [_] rfl rfl
  | _ => exact .of_sm [] rfl rfl

theorem accounts_of_step (hstocked : Stocked house.broker) {action : Action Index}
    (hstep : Lifetime.step lib house action = some next) :
    Accounts lib house.broker next.broker := by
  cases action with
  | restart bucketSize inFlightTimeout nowMs =>
      simp only [Lifetime.step] at hstep
      split at hstep
      · cases hstep
      · split_ifs at hstep
        cases hstep
        exact ⟨[], rfl, fun _ _ _ _ hvalue _ => .inl hvalue⟩
  | house action =>
      cases houseEffect_of_step hstep with
      | broker action after hafter =>
          exact accounts_of_effect (Rounds.effect_of_step hstocked hafter).1
      | look action janitor hkeys => exact .of_sm [] rfl rfl
      | mark key keys hkeys => exact .of_sm [] rfl rfl

/-- The message is stored, or since `past` it has expired or was acknowledged. -/
def Lasts (past : List Event) (key value : Bytes) (broker : Broker Index) : Prop :=
  ∃ later, broker.log = later ++ past ∧
    (broker.sm.db[key]? = some value ∨ (∃ consumer, .acked consumer key true ∈ later) ∨
      .removed key true ∈ later)

theorem Lasts.step {past : List Event} {key value : Bytes} {msg : StoredMessage Index}
    (hlasts : Lasts past key value house.broker) (halive : Alive lib base house)
    (hlength : key.length = 24) (hmsg : lib.unmarshal value = some msg)
    (hpast : ∀ consumer, .acked consumer key true ∉ past) {action : Action Index}
    (hproper : Proper lib house action) (hstep : Lifetime.step lib house action = some next) :
    Lasts past key value next.broker := by
  obtain ⟨later, hlater, hcases⟩ := hlasts
  obtain ⟨events, hevents, hremoved⟩ := accounts_of_step halive.kept.stocked hstep
  have hlog : next.broker.log = (events ++ later) ++ past := by
    rw [hevents, hlater, List.append_assoc]
  refine ⟨events ++ later, hlog, ?_⟩
  rcases hcases with hstored | ⟨consumer, hacked⟩ | hexpired
  · rcases hremoved key value msg hlength hstored hmsg with hkept | ⟨expired, hgone⟩
    · exact .inl hkept
    · cases expired with
      | true => exact .inr (.inr (List.mem_append_left _ hgone))
      | false =>
          -- it was removed alive, so somebody had acknowledged it, and not before `past`
          obtain ⟨front, back, rfl⟩ := List.append_of_mem hgone
          have hsuffix : .removed key false :: (back ++ later ++ past) <:+
              next.broker.log := ⟨front, by rw [hlog]; simp⟩
          have hjustified := (halive.step hproper hstep).kept.sound.justified
          obtain ⟨consumer, hacked⟩ := hjustified key _ hsuffix
          rcases List.mem_append.mp hacked with hsince | hbefore
          · refine .inr (.inl ⟨consumer, ?_⟩)
            simp only [List.mem_append, List.mem_cons] at hsince ⊢
            tauto
          · exact absurd hbefore (hpast consumer)
  · exact .inr (.inl ⟨consumer, List.mem_append_right _ hacked⟩)
  · exact .inr (.inr (List.mem_append_right _ hexpired))

theorem Lasts.run {past : List Event} {key value : Bytes} {msg : StoredMessage Index}
    (hlasts : Lasts past key value house.broker) (halive : Alive lib base house)
    (hlength : key.length = 24) (hmsg : lib.unmarshal value = some msg)
    (hpast : ∀ consumer, .acked consumer key true ∉ past) {actions : List (Action Index)}
    (hproper : Meets (Lifetime.step lib) (Proper lib) house actions)
    (hrun : Transition.run (Lifetime.step lib) house actions = some next) :
    Lasts past key value next.broker := by
  have hboth : ∀ house action next,
      Alive lib base house ∧ Lasts past key value house.broker →
      Proper lib house action → Lifetime.step lib house action = some next →
        Alive lib base next ∧ Lasts past key value next.broker := by
    rintro house action next ⟨halive, hlasts⟩ hproper hstep
    exact ⟨halive.step hproper hstep,
      hlasts.step halive hlength hmsg hpast hproper hstep⟩
  exact (run_invariant hboth ⟨halive, hlasts⟩ hproper hrun).2

/-- The keys of a batch, beside its messages. -/
theorem forall₂_storeKeys {bucketSize : TimeBucketSize} {nowMs : Int64}
    {msgs : List (Message Index)} {items : List StoreBatchItem}
    (hitems : List.Forall₂ (Becomes lib bucketSize nowMs) msgs items) (lastID : UInt64) :
    List.Forall₂ (fun msg key => ∃ value,
      lib.marshal (storedMessage nowMs msg) = .ok value ∧
        (key, value) ∈ KeySpace.storedBy lastID items)
      msgs (storeKeys lastID items) := by
  induction hitems generalizing lastID with
  | nil => exact .nil
  | @cons msg item msgs items hitem hrest ih =>
      obtain ⟨-, -, -, hmarshal⟩ := raftItem_eq_ok_iff.mp hitem.2.2
      refine .cons ⟨item.msg, hmarshal, List.mem_cons_self⟩ ?_
      refine (ih (lastID + 1)).imp fun _ key hkey => ?_
      obtain ⟨value, hvalue, hmem⟩ := hkey
      exact ⟨value, hvalue, List.mem_cons_of_mem _ hmem⟩

theorem nodup_storeKeys {lastID : UInt64} {items : List StoreBatchItem}
    (hbound : lastID.toNat + items.length < 2 ^ 64) : (storeKeys lastID items).Nodup := by
  have hlength : lastID.toNat + (storeKeys lastID items).length < 2 ^ 64 := by
    rwa [length_storeKeys]
  have hincreasing := (numberedFrom_storeKeys lastID items).pairwise_lt hlength
  have hdistinct : ((storeKeys lastID items).map eventIDOf).Nodup :=
    hincreasing.imp UInt64.ne_of_lt
  exact hdistinct.of_map eventIDOf

/-- The key that a publish gives a message is new. -/
theorem Issued.not_known_of_mem_storedBy {counter : UInt64} {marks : List Bytes}
    {broker : Broker Index} (hissued : Issued counter marks broker)
    {items : List StoreBatchItem}
    (hbound : broker.sm.repo.lastID.toNat + items.length < 2 ^ 64) {key value : Bytes}
    (hevent : (key, value) ∈ KeySpace.storedBy broker.sm.repo.lastID items) :
    ¬ Known counter key := by
  have hkey : key ∈ storeKeys broker.sm.repo.lastID items := by
    rw [← KeySpace.map_fst_storedBy]
    exact List.mem_map_of_mem hevent
  exact not_known_of_mem_storeKeys hissued.behind hbound hkey

theorem lasts_of_publish {broker : Broker Index} {items : List StoreBatchItem}
    (hforeign : ∀ item ∈ items, ∀ idx ∈ item.indexes, Foreign idx)
    (hbound : broker.sm.repo.lastID.toNat + items.length < 2 ^ 64) {sm : EventStateMachine}
    (hsm : sm.db = commit broker.sm.db (storeOps broker.sm.repo.lastID items))
    {key value : Bytes}
    (hevent : (key, value) ∈ KeySpace.storedBy broker.sm.repo.lastID items) :
    Lasts broker.log key value (broker.rewrite lib sm) := by
  have hroom : items.length ≤ 2 ^ 64 := by omega
  have hstored : sm.db[key]? = some value := by
    rw [hsm]
    exact KeySpace.getElem?_of_mem_storedBy (KeySpace.apart_of_foreign hforeign) hroom
      hevent broker.sm.db
  exact ⟨losses lib broker.nowMs broker.sm.db sm.db, rfl, .inl hstored⟩

end Lives

/-- Each message of a batch that a standalone broker has answered with success gets a key
of its own, under which nothing was ever stored.  Through every restart it is stored under
this key, unless since the publish it has expired or a client has acknowledged the key. -/
theorem confirmed_message_lives (lib : Libraries Index) (bucketSize : TimeBucketSize)
    (inFlightTimeout : Duration) (startMs nowMs : Int64) {before after : List (Action Index)}
    {batch : PublishBatch Index} {house published final : House Index}
    (hbefore : run (step lib) (.start bucketSize inFlightTimeout startMs) before =
      some house)
    (hproperBefore : Meets (step lib) (Proper lib)
      (.start bucketSize inFlightTimeout startMs) before)
    (hpublish : step lib house (.house (.broker (.publish batch nowMs))) = some published)
    (hproper : Proper lib house (.house (.broker (.publish batch nowMs))))
    (hconfirmed : (processStandaloneBatch lib .pebble .none house.broker.sm.repo
      house.broker.sm.db batch nowMs).1 = .ok ())
    (hafter : run (step lib) published after = some final)
    (hproperAfter : Meets (step lib) (Proper lib) published after)
    (hdecodes : ∀ msg ∈ batch.messages, ∀ value,
      lib.marshal (storedMessage nowMs msg) = .ok value → (lib.unmarshal value).isSome) :
    ∃ keys : List Bytes, keys.Nodup ∧
      List.Forall₂ (fun msg key => ∃ value,
        lib.marshal (storedMessage nowMs msg) = .ok value ∧
        NeverStored lib (.start bucketSize inFlightTimeout startMs) before key ∧
        key ∉ house.broker.log.flatMap namedKeys ∧
        Lasts house.broker.log key value final.broker) batch.messages keys := by
  have hstart := alive_start lib bucketSize inFlightTimeout startMs
  have halive := hstart.run hproperBefore hbefore
  have hpublished : Alive lib 0 published := halive.step hproper hpublish
  obtain ⟨counter, -, hissued⟩ := halive.issued
  obtain ⟨hforeign, hbound⟩ := hproper
  rcases hprocess : processStandaloneBatch lib .pebble .none house.broker.sm.repo
    house.broker.sm.db batch nowMs with ⟨outcome, repo, db⟩
  rw [hprocess] at hconfirmed
  rcases processStandaloneBatch_cases hprocess with
    ⟨err, rfl, -⟩ | ⟨-, items, hitems, rfl, -⟩
  · cases hconfirmed
  · rw [publishItems_eq hitems] at hforeign
    rw [hitems.length_eq] at hbound
    simp only [step, Expiry.step, Rounds.step, hprocess, Option.map_some,
      Option.some.injEq] at hpublish
    subst hpublish
    have hkeys := (List.forall₂_and_left _ _).mpr
      ⟨hdecodes, forall₂_storeKeys hitems house.broker.sm.repo.lastID⟩
    refine ⟨_, nodup_storeKeys hbound, hkeys.imp fun msg key hkey => ?_⟩
    obtain ⟨hreadable, value, hmarshal, hevent⟩ := hkey
    obtain ⟨stored, hstored⟩ := Option.isSome_iff_exists.mp (hreadable value hmarshal)
    have hdb : EventStateMachine.db { house.broker.sm with
        repo, db := commit house.broker.sm.db (storeOps house.broker.sm.repo.lastID items) } =
        commit house.broker.sm.db (storeOps house.broker.sm.repo.lastID items) := rfl
    have hlength : key.length = 24 := KeySpace.length_of_mem_storedBy hevent
    have hnever : NeverStored lib (.start bucketSize inFlightTimeout startMs) before key :=
      hstart.neverStored hproperBefore hbefore hlength fun _ hrecorded =>
        hrecorded.not_known_of_mem_storedBy hbound hevent
    have hunnamed : key ∉ house.broker.log.flatMap namedKeys := fun hnamed => by
      obtain ⟨event, hmem, hname⟩ := List.mem_flatMap.mp hnamed
      exact hissued.not_known_of_mem_storedBy hbound hevent
        (hissued.named event hmem key hname)
    have hbase : ∀ consumer, .acked consumer key true ∉ house.broker.log :=
      fun consumer hacked =>
        hunnamed (List.mem_flatMap.mpr ⟨_, hacked, List.mem_cons_self⟩)
    exact ⟨value, hmarshal, hnever, hunnamed,
      Lasts.run (lasts_of_publish hforeign hbound hdb hevent) hpublished hlength hstored
        hbase hproperAfter hafter⟩

/-- A batch that fails, so that the counter of the process runs ahead of the recorded
one. -/
def badBatch : PublishBatch Bytes := ⟨[⟨"orders", [7], 0, 0, []⟩], .quorum⟩

def orderBatch : PublishBatch Bytes := ⟨[⟨"orders", [9], 0, 0, []⟩], .quorum⟩

/-- The broker starts again, delivers the order and starts once more. -/
def twoRestarts : List (Action Bytes) :=
  [.restart ⟨0, valid_zero⟩ 30000000000 20, .house (.broker (.register ⟨"c1", "orders", ""⟩)),
    .house (.broker (.begin "orders" 20)), .house (.broker (.check 0)),
    .house (.broker (.dispatch .sorted)), .house (.broker (.track 0)),
    .restart ⟨0, valid_zero⟩ 30000000000 30]

theorem confirmed_message_lives_twoRestarts :
    ∃ house published final, run (step orderLibraries)
        (.start ⟨0, valid_zero⟩ 30000000000 10)
        [.house (.broker (.publish badBatch 5))] = some house ∧
      step orderLibraries house (.house (.broker (.publish orderBatch 5))) =
        some published ∧
      run (step orderLibraries) published twoRestarts = some final ∧
      ∃ keys : List Bytes, keys.Nodup ∧ keys.length = 1 ∧
        ∀ key ∈ keys, Lasts house.broker.log key [1] final.broker := by
  have hbegin : Meets (step orderLibraries) (Proper orderLibraries)
      (.start ⟨0, valid_zero⟩ 30000000000 10)
      [.house (.broker (.publish badBatch 5))] := by decide +kernel
  obtain ⟨house, hbefore, hproper, hconfirmed, hrest⟩ :
      ∃ house, run (step orderLibraries) (.start ⟨0, valid_zero⟩ 30000000000 10)
          [.house (.broker (.publish badBatch 5))] = some house ∧
        Proper orderLibraries house (.house (.broker (.publish orderBatch 5))) ∧
        (processStandaloneBatch orderLibraries .pebble .none house.broker.sm.repo
          house.broker.sm.db orderBatch 5).1 = .ok () ∧
        ((step orderLibraries house (.house (.broker (.publish orderBatch 5)))).any
          fun published =>
            Meets (step orderLibraries) (Proper orderLibraries) published twoRestarts ∧
              (run (step orderLibraries) published twoRestarts).isSome) = true :=
    exists_finish_of_any (by decide +kernel)
  obtain ⟨published, hpublish, hchecks⟩ := (Option.any_eq_true _ _).mp hrest
  obtain ⟨hafterProper, hends⟩ := of_decide_eq_true hchecks
  obtain ⟨final, hafter⟩ := Option.isSome_iff_exists.mp hends
  have hbytes : orderLibraries.marshal (storedMessage 5 ⟨"orders", [9], 0, 0, []⟩) =
      .ok [1] := by decide +kernel
  have hdecodes : ∀ msg ∈ orderBatch.messages, ∀ value,
      orderLibraries.marshal (storedMessage 5 msg) = .ok value →
        (orderLibraries.unmarshal value).isSome := by
    intro msg hmsg value hvalue
    rw [List.mem_singleton.mp hmsg, hbytes] at hvalue
    cases hvalue
    decide +kernel
  obtain ⟨keys, hnodup, hkeys⟩ := confirmed_message_lives orderLibraries _ _ _ 5 hbefore
    hbegin hpublish hproper hconfirmed hafter hafterProper hdecodes
  refine ⟨house, published, final, hbefore, hpublish, hafter, keys, hnodup,
    hkeys.length_eq.symm, ?_⟩
  cases hkeys with
  | cons hkey hnone =>
      cases hnone
      obtain ⟨value, hvalue, -, -, hlasts⟩ := hkey
      rw [hbytes] at hvalue
      cases hvalue
      intro key hmem
      exact List.mem_singleton.mp hmem ▸ hlasts

end FutureQ.Lifetime
