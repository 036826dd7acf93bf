import FutureQ.Core.ByteOrder
import FutureQ.Core.GoRuntime

/-!
# Storage keys

Messages live under 24-byte keys `[topicHash][bucket][eventID]`, all fields
big-endian, so that the byte order of the store groups messages by topic and
then by due time.  The bucket of a message is its fire time divided by the
configured bucket size; the configuration step guarantees that the divisor is
never zero, and `TimeBucketSize` carries that guarantee.
-/

namespace FutureQ.Keys

open FutureQ.ByteOrder
open FutureQ.GoRuntime

/-- `time.Duration`: a signed number of nanoseconds. -/
abbrev Duration := Int64

def millisecond : Duration := 1000000

def milliseconds (duration : Duration) : Int64 := duration / millisecond

/-- The bucket index of a Unix-millisecond timestamp.  Non-positive times go to
bucket 0, and a non-positive bucket size means one bucket per millisecond. -/
def calculateBucket (unixMs : Int64) (bucketSize : Duration) :
    Except Panic UInt64 :=
  if unixMs ≤ 0 then .ok 0
  else if bucketSize ≤ 0 then .ok unixMs.toUInt64
  else if milliseconds bucketSize = 0 then .error .integerDivideByZero
  else .ok (unixMs.toUInt64 / (milliseconds bucketSize).toUInt64)

/-- The bucket sizes that `validateStorage` leaves in the configuration. -/
structure TimeBucketSize where
  duration : Duration
  valid : duration = 0 ∨ millisecond ≤ duration

theorem valid_zero : (0 : Duration) = 0 ∨ millisecond ≤ 0 := .inl rfl

/-- The clamp of `validateStorage`: sizes below one millisecond become zero. -/
def validateStorage (duration : Duration) : TimeBucketSize :=
  if h : duration < millisecond then ⟨0, valid_zero⟩
  else ⟨duration, .inr (Int64.not_lt.mp h)⟩

def TimeBucketSize.bucket (size : TimeBucketSize) (unixMs : Int64) : UInt64 :=
  (calculateBucket unixMs size.duration).toOption.getD 0

theorem toInt_milliseconds {duration : Duration}
    (hduration : millisecond ≤ duration) :
    (milliseconds duration).toInt = duration.toInt / 1000000 := by
  have hle : (1000000 : ℤ) ≤ duration.toInt := by
    simpa [millisecond] using Int64.le_iff_toInt_le.mp hduration
  rw [milliseconds, Int64.toInt_div_of_ne_right _ _ (by decide)]
  exact Int.tdiv_eq_ediv_of_nonneg (by omega)

theorem milliseconds_ne_zero {duration : Duration}
    (hduration : millisecond ≤ duration) : milliseconds duration ≠ 0 := by
  intro hzero
  have hle : (1000000 : ℤ) ≤ duration.toInt := by
    simpa [millisecond] using Int64.le_iff_toInt_le.mp hduration
  have hdiv := toInt_milliseconds hduration
  rw [hzero] at hdiv
  simp at hdiv
  omega

/-- A validated bucket size never divides by zero. -/
theorem calculateBucket_eq_ok (size : TimeBucketSize) (unixMs : Int64) :
    calculateBucket unixMs size.duration = .ok (size.bucket unixMs) := by
  have hreturns : ∃ bucket, calculateBucket unixMs size.duration = .ok bucket := by
    unfold calculateBucket
    split
    · exact ⟨_, rfl⟩
    · split
      · exact ⟨_, rfl⟩
      · rename_i hpositive
        have hsize : millisecond ≤ size.duration := by
          rcases size.valid with hzero | hsize
          · exact absurd (hzero ▸ Int64.le_refl 0) hpositive
          · exact hsize
        rw [if_neg (milliseconds_ne_zero hsize)]
        exact ⟨_, rfl⟩
  obtain ⟨bucket, hbucket⟩ := hreturns
  rw [TimeBucketSize.bucket, hbucket]
  rfl

/-- The number of milliseconds that share a bucket. -/
def TimeBucketSize.unit (size : TimeBucketSize) : ℕ :=
  if size.duration = 0 then 1 else (milliseconds size.duration).toInt.toNat

theorem unit_pos (size : TimeBucketSize) : 0 < size.unit := by
  rw [TimeBucketSize.unit]
  rcases size.valid with hzero | hsize
  · rw [if_pos hzero]
    exact Nat.one_pos
  · have hne : size.duration ≠ 0 := by
      intro hzero
      rw [hzero] at hsize
      revert hsize
      decide
    have hpositive : 0 < (milliseconds size.duration).toInt := by
      rw [toInt_milliseconds hsize]
      have hle : (1000000 : ℤ) ≤ size.duration.toInt := by
        simpa [millisecond] using Int64.le_iff_toInt_le.mp hsize
      omega
    rw [if_neg hne]
    omega

/-- The bucket of a time is the time divided by the bucket size, with all times
before the epoch in bucket 0. -/
theorem toNat_bucket (size : TimeBucketSize) (unixMs : Int64) :
    (size.bucket unixMs).toNat = unixMs.toInt.toNat / size.unit := by
  have hbucket := calculateBucket_eq_ok size unixMs
  rw [calculateBucket] at hbucket
  by_cases hpast : unixMs ≤ 0
  · have hle : unixMs.toInt ≤ 0 := by
      simpa using Int64.le_iff_toInt_le.mp hpast
    rw [if_pos hpast] at hbucket
    rw [← Except.ok.inj hbucket, Int.toNat_of_nonpos hle]
    simp
  · have hpositive : 0 < unixMs.toInt := by
      simpa using Int64.lt_iff_toInt_lt.mp (Int64.not_le.mp hpast)
    rw [if_neg hpast] at hbucket
    rcases size.valid with hzero | hsize
    · rw [if_pos (hzero ▸ Int64.le_refl 0)] at hbucket
      rw [← Except.ok.inj hbucket, toNat_toUInt64 hpositive.le,
        TimeBucketSize.unit, if_pos hzero, Nat.div_one]
    · have hlarge : (1000000 : ℤ) ≤ size.duration.toInt := by
        simpa [millisecond] using Int64.le_iff_toInt_le.mp hsize
      have hsigned : ¬ size.duration ≤ 0 := by
        rw [Int64.le_iff_toInt_le]
        simp
        omega
      have hne : size.duration ≠ 0 := fun hzero => hsigned (hzero ▸ Int64.le_refl 0)
      have hmilliseconds : 0 ≤ (milliseconds size.duration).toInt := by
        rw [toInt_milliseconds hsize]
        omega
      rw [if_neg hsigned, if_neg (milliseconds_ne_zero hsize)] at hbucket
      rw [← Except.ok.inj hbucket, UInt64.toNat_div, toNat_toUInt64 hpositive.le,
        toNat_toUInt64 hmilliseconds, TimeBucketSize.unit, if_neg hne]

theorem bucket_lt (size : TimeBucketSize) (unixMs : Int64) :
    (size.bucket unixMs).toNat < 2 ^ 63 := by
  have hbound := unixMs.toInt_lt
  rw [toNat_bucket]
  calc unixMs.toInt.toNat / size.unit ≤ unixMs.toInt.toNat := Nat.div_le_self _ _
    _ < 2 ^ 63 := by omega

/-- Later times have later buckets. -/
theorem bucket_le_bucket (size : TimeBucketSize) {earlier later : Int64}
    (hle : earlier.toInt ≤ later.toInt) :
    size.bucket earlier ≤ size.bucket later := by
  rw [UInt64.le_iff_toNat_le, toNat_bucket, toNat_bucket]
  exact Nat.div_le_div_right (Int.toNat_le_toNat hle)

def eventKey (bucket topicHash eventID : UInt64) : Bytes :=
  putUint64 topicHash ++ putUint64 bucket ++ putUint64 eventID

def topicLowerBound (topicHash : UInt64) : Bytes :=
  putUint64 topicHash

/-- The exclusive bound of the due part of a topic: buckets up to
`maxBucket`. -/
def dueUpperBound (topicHash maxBucket : UInt64) : Bytes :=
  putUint64 topicHash ++ putUint64 (maxBucket + 1)

structure KeyLengthError where
  length : ℕ
  deriving DecidableEq, Repr

def KeyLengthError.message (err : KeyLengthError) : String :=
  s!"key length must be 24. got {err.length}"

/-- `(topicHash, bucket, eventID)` of a 24-byte key. -/
def parseEventKey (key : Bytes) :
    Except KeyLengthError (UInt64 × UInt64 × UInt64) :=
  if key.length ≠ 24 then .error ⟨key.length⟩
  else .ok (uint64 key, uint64 (key.drop 8), uint64 (key.drop 16))

/-- The counter field of a key. -/
def eventIDOf (key : Bytes) : UInt64 := uint64 (key.drop 16)

@[simp]
theorem length_eventKey (bucket topicHash eventID : UInt64) :
    (eventKey bucket topicHash eventID).length = 24 := by
  simp [eventKey]

@[simp]
theorem drop_eventKey (bucket topicHash eventID : UInt64) :
    (eventKey bucket topicHash eventID).drop 16 = putUint64 eventID := by
  rw [eventKey, List.drop_left' (by simp)]

@[simp]
theorem eventIDOf_eventKey (bucket topicHash eventID : UInt64) :
    eventIDOf (eventKey bucket topicHash eventID) = eventID := by
  simp [eventIDOf]

theorem parseEventKey_eventKey (bucket topicHash eventID : UInt64) :
    parseEventKey (eventKey bucket topicHash eventID) =
      .ok (topicHash, bucket, eventID) := by
  have hbucket : uint64 ((eventKey bucket topicHash eventID).drop 8) = bucket := by
    simp [eventKey]
  have htopic : uint64 (eventKey bucket topicHash eventID) = topicHash := by
    simp [eventKey]
  rw [parseEventKey, if_neg (by simp), hbucket, htopic, drop_eventKey,
    uint64_putUint64]

/-- A key of 24 bytes is the event key of its fields. -/
theorem eventKey_of_length {key : Bytes} (hlength : key.length = 24) :
    eventKey (uint64 (key.drop 8)) (uint64 key) (eventIDOf key) = key := by
  have htopic : putUint64 (uint64 key) = key.take 8 := by
    have htake : uint64 key = uint64 (key.take 8) := by
      simp [uint64, List.take_take]
    rw [htake, putUint64_uint64 (by simp [hlength])]
  have hbucket : putUint64 (uint64 (key.drop 8)) = (key.drop 8).take 8 := by
    have htake : uint64 (key.drop 8) = uint64 ((key.drop 8).take 8) := by
      simp [uint64, List.take_take]
    rw [htake, putUint64_uint64 (by simp [hlength])]
  have hid : putUint64 (eventIDOf key) = key.drop 16 := by
    rw [eventIDOf, putUint64_uint64 (by simp [hlength])]
  have hrest : key.drop 16 = (key.drop 8).drop 8 := by rw [List.drop_drop]
  rw [eventKey, htopic, hbucket, hid, hrest, List.append_assoc,
    List.take_append_drop, List.take_append_drop]

/-- Keys are ordered by topic, then by bucket, then by ID. -/
theorem compare_eventKey (bucket topicHash eventID : UInt64)
    (otherBucket otherHash otherID : UInt64) :
    compare (eventKey bucket topicHash eventID)
        (eventKey otherBucket otherHash otherID) =
      (compare topicHash otherHash).then
        ((compare bucket otherBucket).then (compare eventID otherID)) := by
  rw [eventKey, eventKey, List.append_assoc, List.append_assoc,
    compare_append (by simp), compare_append (by simp), compare_putUint64,
    compare_putUint64, compare_putUint64]

/-- The scan of a topic up to a bucket holds exactly the keys of that topic in
those buckets. -/
theorem eventKey_mem_due_iff {bucket topicHash eventID hash maxBucket : UInt64}
    (hmax : maxBucket.toNat + 1 < 2 ^ 64) :
    ((compare (topicLowerBound hash) (eventKey bucket topicHash eventID)).isLE ∧
      compare (eventKey bucket topicHash eventID) (dueUpperBound hash maxBucket) =
        .lt) ↔ topicHash = hash ∧ bucket ≤ maxBucket := by
  have hfields : ∀ field : UInt64, putUint64 field ≠ [] := by
    intro field hnil
    have hlength := length_putUint64 field
    rw [hnil] at hlength
    cases hlength
  have hlower : compare (topicLowerBound hash) (eventKey bucket topicHash eventID) =
      (compare hash topicHash).then .lt := by
    rw [topicLowerBound, eventKey, List.append_assoc,
      ← List.append_nil (putUint64 hash), compare_append (by simp),
      compare_putUint64, compare_nil_left (by simp [hfields])]
  have hupper : compare (eventKey bucket topicHash eventID)
      (dueUpperBound hash maxBucket) = (compare topicHash hash).then
        ((compare bucket (maxBucket + 1)).then .gt) := by
    rw [dueUpperBound, eventKey, List.append_assoc,
      ← List.append_nil (putUint64 (maxBucket + 1)), compare_append (by simp),
      compare_append (by simp), compare_putUint64, compare_putUint64,
      compare_nil_right (hfields eventID)]
  have hsucc : (maxBucket + 1).toNat = maxBucket.toNat + 1 := by
    rw [UInt64.toNat_add, UInt64.toNat_one, Nat.mod_eq_of_lt hmax]
  rw [hlower, hupper, UInt64.compare_eq_toNat_compare_toNat,
    UInt64.compare_eq_toNat_compare_toNat, UInt64.compare_eq_toNat_compare_toNat,
    hsucc, UInt64.le_iff_toNat_le, ← UInt64.toNat_inj]
  rcases Nat.lt_trichotomy hash.toNat topicHash.toNat with hlt | heq | hgt
  · rw [Nat.compare_eq_gt.mpr hlt]
    simp
    omega
  · rw [heq, Nat.compare_eq_eq.mpr rfl]
    rcases Nat.lt_trichotomy bucket.toNat (maxBucket.toNat + 1) with hlt | hsame | hgt
    · rw [Nat.compare_eq_lt.mpr hlt]
      simp
      omega
    · rw [Nat.compare_eq_eq.mpr hsame]
      simp
      omega
    · rw [Nat.compare_eq_gt.mpr hgt]
      simp
      omega
  · rw [Nat.compare_eq_gt.mpr hgt]
    simp
    omega

/-- Only keys of 24 bytes are parsed, and each into the fields it is built
from. -/
theorem parseEventKey_eq_ok_iff {key : Bytes} {topicHash bucket eventID : UInt64} :
    parseEventKey key = .ok (topicHash, bucket, eventID) ↔
      key = eventKey bucket topicHash eventID := by
  constructor
  · intro hparse
    rw [parseEventKey] at hparse
    split_ifs at hparse with hlength
    cases hparse
    exact (eventKey_of_length (not_not.mp hlength)).symm
  · rintro rfl
    exact parseEventKey_eventKey bucket topicHash eventID

/-- Event keys are ordered as their fields `(topicHash, bucket, eventID)` are, and
building and parsing are inverse to each other on the keys of 24 bytes. -/
theorem event_keys_ordered_bijection :
    (∀ bucket topicHash eventID otherBucket otherHash otherID : UInt64,
      compare (eventKey bucket topicHash eventID)
          (eventKey otherBucket otherHash otherID) =
        (compare topicHash otherHash).then
          ((compare bucket otherBucket).then (compare eventID otherID))) ∧
    (∀ bucket topicHash eventID : UInt64,
      parseEventKey (eventKey bucket topicHash eventID) =
        .ok (topicHash, bucket, eventID)) ∧
    ∀ key : Bytes,
      ((∃ fields, parseEventKey key = .ok fields) ↔ key.length = 24) ∧
      ∀ topicHash bucket eventID : UInt64,
        parseEventKey key = .ok (topicHash, bucket, eventID) →
          eventKey bucket topicHash eventID = key := by
  refine ⟨compare_eventKey, parseEventKey_eventKey, fun key => ⟨⟨?_, ?_⟩, ?_⟩⟩
  · rintro ⟨⟨topicHash, bucket, eventID⟩, hparse⟩
    rw [parseEventKey_eq_ok_iff.mp hparse, length_eventKey]
  · intro hlength
    exact ⟨_, parseEventKey_eq_ok_iff.mpr (eventKey_of_length hlength).symm⟩
  · intro topicHash bucket eventID hparse
    exact (parseEventKey_eq_ok_iff.mp hparse).symm

end FutureQ.Keys
