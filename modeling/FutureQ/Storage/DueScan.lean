import FutureQ.Storage.Repository

/-!
# The due scan

A dispatch pass over a topic scans the keys between the topic's lower bound and
the bound after the current bucket.  The two bounds and the keys have three
different lengths, and the buckets come from a division that saturates at zero;
this module shows that the scan still meets exactly the due events of the
topic, in the order of their buckets and IDs.
-/

namespace FutureQ.DueScan

open FutureQ.ByteOrder
open FutureQ.GoRuntime
open FutureQ.OrderedStore
open FutureQ.Storage
open FutureQ.Keys
open FutureQ.Repository

/-- The scan of `dispatchTopic`. -/
def dueScan (db : DB) (topicHash nowBucket : UInt64) : List (Bytes × Bytes) :=
  scan db (topicLowerBound topicHash) (dueUpperBound topicHash nowBucket)

/-- The fields `(topicHash, bucket, eventID)` of the event keys among the
entries of a scan. -/
def eventFields (entries : List (Bytes × Bytes)) :
    List (UInt64 × UInt64 × UInt64) :=
  entries.filterMap fun entry => (parseEventKey entry.1).toOption

/-- The order of events within a topic. -/
def Earlier (first second : UInt64 × UInt64 × UInt64) : Prop :=
  first.2.1 < second.2.1 ∨ first.2.1 = second.2.1 ∧ first.2.2 < second.2.2

/-- The fire time of the message as an unbounded integer. -/
def fireTime {Index : Type} (msg : StoredMessage Index) : ℤ :=
  msg.enqueuedAtUnixMs.toInt + msg.delayMs.toInt

theorem parseEventKey_eq_ok_iff {key : Bytes} {fields : UInt64 × UInt64 × UInt64} :
    (parseEventKey key).toOption = some fields ↔
      key = eventKey fields.2.1 fields.1 fields.2.2 := by
  obtain ⟨topicHash, bucket, eventID⟩ := fields
  constructor
  · intro hparse
    rw [parseEventKey] at hparse
    split_ifs at hparse with hlength
    · cases hparse
    · cases hparse
      exact (eventKey_of_length (not_not.mp hlength)).symm
  · rintro rfl
    rw [parseEventKey_eventKey]
    rfl

theorem eventKey_mem_dueScan_iff {db : DB} {size : TimeBucketSize}
    {nowMs : Int64} {bucket topicHash eventID hash : UInt64} {value : Bytes} :
    (eventKey bucket topicHash eventID, value) ∈
        dueScan db hash (size.bucket nowMs) ↔
      db[eventKey bucket topicHash eventID]? = some value ∧
        topicHash = hash ∧ bucket ≤ size.bucket nowMs := by
  have hbound := bucket_lt size nowMs
  rw [dueScan, mem_scan_iff, eventKey_mem_due_iff (by omega)]

theorem mem_eventFields_iff {entries : List (Bytes × Bytes)}
    {topicHash bucket eventID : UInt64} :
    (topicHash, bucket, eventID) ∈ eventFields entries ↔
      ∃ value, (eventKey bucket topicHash eventID, value) ∈ entries := by
  rw [eventFields, List.mem_filterMap]
  constructor
  · rintro ⟨⟨key, value⟩, hentry, hparse⟩
    have hkey := parseEventKey_eq_ok_iff.mp hparse
    exact ⟨value, hkey ▸ hentry⟩
  · rintro ⟨value, hentry⟩
    exact ⟨_, hentry, parseEventKey_eq_ok_iff.mpr rfl⟩

/-- Byte order of the keys of one topic is the order of the events. -/
theorem earlier_of_compare {topicHash bucket eventID : UInt64}
    {otherBucket otherID : UInt64}
    (hlt : compare (eventKey bucket topicHash eventID)
      (eventKey otherBucket topicHash otherID) = .lt) :
    Earlier (topicHash, bucket, eventID) (topicHash, otherBucket, otherID) := by
  have hself : compare topicHash topicHash = .eq := Std.ReflCmp.compare_self
  rw [compare_eventKey, hself, Ordering.then_eq_lt] at hlt
  rcases hlt with hcontra | ⟨-, hlt⟩
  · cases hcontra
  · rw [Ordering.then_eq_lt] at hlt
    rcases hlt with hbucket | ⟨hbucket, hid⟩
    · exact .inl (lt_of_compare_eq_lt hbucket)
    · exact .inr ⟨Std.LawfulEqCmp.eq_of_compare hbucket, lt_of_compare_eq_lt hid⟩

theorem pairwise_eventFields (db : DB) (size : TimeBucketSize) (nowMs : Int64)
    (hash : UInt64) :
    (eventFields (dueScan db hash (size.bucket nowMs))).Pairwise Earlier := by
  rw [eventFields, List.pairwise_filterMap]
  have hordered := pairwise_scan db (topicLowerBound hash)
    (dueUpperBound hash (size.bucket nowMs))
  refine List.Pairwise.imp_of_mem ?_ hordered
  rintro ⟨key, value⟩ ⟨otherKey, otherValue⟩ hentry hother hlt fields hfields
    otherFields hotherFields
  obtain ⟨topicHash, bucket, eventID⟩ := fields
  obtain ⟨otherHash, otherBucket, otherID⟩ := otherFields
  obtain rfl := parseEventKey_eq_ok_iff.mp hfields
  obtain rfl := parseEventKey_eq_ok_iff.mp hotherFields
  obtain ⟨-, rfl, -⟩ := eventKey_mem_dueScan_iff.mp hentry
  obtain ⟨-, rfl, -⟩ := eventKey_mem_dueScan_iff.mp hother
  exact earlier_of_compare hlt

/-- A fire time that fits its word has its bucket no later than any time at or
after it. -/
theorem bucket_fireTime_le {Index : Type} {msg : StoredMessage Index}
    {size : TimeBucketSize} {nowMs : Int64} (hlower : -2 ^ 63 ≤ fireTime msg)
    (hupper : fireTime msg < 2 ^ 63) (hdue : fireTime msg ≤ nowMs.toInt) :
    size.bucket (msg.enqueuedAtUnixMs + msg.delayMs) ≤ size.bucket nowMs := by
  apply bucket_le_bucket
  rw [toInt_add hlower hupper]
  exact hdue

/-- The due scan is exact: under a validated bucket size the current bucket is
defined, the events met are those of the topic in the buckets up to it, in
increasing order, and a message with a representable fire time is met from that
time on. -/
theorem due_scan_exact {Index : Type} (lib : Libraries Index)
    (size : TimeBucketSize) (db : DB) (nowMs : Int64) :
    ∃ nowBucket, calculateBucket nowMs size.duration = .ok nowBucket ∧
      (∀ hash topicHash bucket eventID,
        (topicHash, bucket, eventID) ∈ eventFields (dueScan db hash nowBucket) ↔
          topicHash = hash ∧ bucket ≤ nowBucket ∧
            eventKey bucket topicHash eventID ∈ db) ∧
      (∀ hash, (eventFields (dueScan db hash nowBucket)).Pairwise Earlier) ∧
      ∀ (msg : StoredMessage Index) (bucket eventID : UInt64),
        -2 ^ 63 ≤ fireTime msg → fireTime msg < 2 ^ 63 →
        fireTime msg ≤ nowMs.toInt →
        calculateBucket (msg.enqueuedAtUnixMs + msg.delayMs) size.duration =
          .ok bucket →
        eventKey bucket (lib.topicHash msg.topic) eventID ∈ db →
        (lib.topicHash msg.topic, bucket, eventID) ∈
          eventFields (dueScan db (lib.topicHash msg.topic) nowBucket) := by
  have hexact : ∀ hash topicHash bucket eventID, (topicHash, bucket, eventID) ∈
      eventFields (dueScan db hash (size.bucket nowMs)) ↔
        topicHash = hash ∧ bucket ≤ size.bucket nowMs ∧
          eventKey bucket topicHash eventID ∈ db := by
    intro hash topicHash bucket eventID
    simp only [mem_eventFields_iff, eventKey_mem_dueScan_iff,
      Std.ExtTreeMap.mem_iff_isSome_getElem?, Option.isSome_iff_exists]
    tauto
  refine ⟨size.bucket nowMs, calculateBucket_eq_ok size nowMs, hexact,
    pairwise_eventFields db size nowMs, ?_⟩
  intro msg bucket eventID hlower hupper hdue hbucket hstored
  rw [calculateBucket_eq_ok, Except.ok.injEq] at hbucket
  subst hbucket
  exact (hexact _ _ _ eventID).mpr
    ⟨rfl, bucket_fireTime_le hlower hupper hdue, hstored⟩

end FutureQ.DueScan
