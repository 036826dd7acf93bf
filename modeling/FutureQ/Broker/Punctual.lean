import FutureQ.Broker.Dispatcher
import FutureQ.Broker.Producer

/-!
# Delivery before the delay has expired

The fire time of a message is a wrapping sum of two signed words, and a pass
compares buckets, not times.  A message is never handed over early exactly when
the sum does not overflow and the fire time is the first millisecond of its
bucket.
-/

namespace FutureQ.Punctual

open FutureQ.ByteOrder
open FutureQ.GoRuntime
open FutureQ.OrderedStore
open FutureQ.Storage
open FutureQ.Keys
open FutureQ.Repository
open FutureQ.Commands
open FutureQ.DueScan
open FutureQ.Consumers
open FutureQ.Dispatch
open FutureQ.Producer

variable {Index : Type}

/-- No pass hands over a message with these times before they have passed,
wherever the message is stored and whoever is connected. -/
def NeverEarly (lib : Libraries Index) (size : TimeBucketSize)
    (enqueuedAtUnixMs delayMs : Int64) : Prop :=
  ∀ (msg : Message Index) (item : StoreBatchItem), msg.delayMs = delayMs →
    Becomes lib size enqueuedAtUnixMs msg item →
    ∀ (db : DB) (eventID : UInt64),
      db[eventKey item.bucket item.topicHash eventID]? = some item.msg →
      ∀ (turns : Bytes → Turn) (hub : Hub) (dispatcher : Dispatcher)
        (topic : String) (nowMs : Int64),
        ∀ offer ∈ (dispatchTopic lib size db turns hub dispatcher topic nowMs).offers,
          offer.key = eventKey item.bucket item.topicHash eventID →
          enqueuedAtUnixMs.toInt + delayMs.toInt ≤ nowMs.toInt

/-- The fire time is representable and opens its bucket.  The least time of all
is the only one in bucket 0 that no clock can precede. -/
def OpensBucket (size : TimeBucketSize) (fireAtMs : ℤ) : Prop :=
  fireAtMs < 2 ^ 63 ∧
    (0 < fireAtMs ∧ (size.unit : ℤ) ∣ fireAtMs ∨ fireAtMs = -2 ^ 63)

theorem exists_toInt (value : ℤ) (hlower : -2 ^ 63 ≤ value)
    (hupper : value < 2 ^ 63) : ∃ word : Int64, word.toInt = value :=
  ⟨Int64.ofInt value, Int64.toInt_ofInt_of_le hlower hupper⟩

/-- A clock that has reached the bucket of such a time has reached the time. -/
theorem le_of_bucket_le {size : TimeBucketSize} {fireAt nowMs : Int64}
    (hopens : OpensBucket size fireAt.toInt)
    (hbucket : size.bucket fireAt ≤ size.bucket nowMs) :
    fireAt.toInt ≤ nowMs.toInt := by
  rcases hopens.2 with ⟨hpositive, hunit⟩ | hleast
  · rw [UInt64.le_iff_toNat_le, toNat_bucket, toNat_bucket] at hbucket
    have hdvd : size.unit ∣ fireAt.toInt.toNat := by
      obtain ⟨fire, hfire⟩ := Int.eq_ofNat_of_zero_le hpositive.le
      rw [hfire] at hunit ⊢
      exact Int.natCast_dvd_natCast.mp hunit
    have hreached : fireAt.toInt.toNat ≤ nowMs.toInt.toNat :=
      calc fireAt.toInt.toNat
          = fireAt.toInt.toNat / size.unit * size.unit :=
            (Nat.div_mul_cancel hdvd).symm
        _ ≤ nowMs.toInt.toNat / size.unit * size.unit :=
            Nat.mul_le_mul_right _ hbucket
        _ ≤ nowMs.toInt.toNat := Nat.div_mul_le_self _ _
    omega
  · rw [hleast]
    exact nowMs.le_toInt

/-- Any other time shares its bucket with an earlier one. -/
theorem exists_earlier {size : TimeBucketSize} {enqueued delay : Int64}
    (hdelay : 0 ≤ delay.toInt)
    (hopens : ¬ OpensBucket size (enqueued.toInt + delay.toInt)) :
    ∃ nowMs : Int64, nowMs.toInt < enqueued.toInt + delay.toInt ∧
      size.bucket (enqueued + delay) ≤ size.bucket nowMs := by
  have hlower := enqueued.le_toInt
  by_cases hoverflow : enqueued.toInt + delay.toInt < 2 ^ 63
  · have hsum := toInt_add (by omega) hoverflow
    by_cases hpositive : 0 < enqueued.toInt + delay.toInt
    · have hunit : ¬ (size.unit : ℤ) ∣ enqueued.toInt + delay.toInt :=
        fun hdvd => hopens ⟨hoverflow, .inl ⟨hpositive, hdvd⟩⟩
      obtain ⟨fire, hfire⟩ := Int.eq_ofNat_of_zero_le hpositive.le
      rw [hfire] at hsum hunit hoverflow ⊢
      have hrest : 0 < fire % size.unit := by
        refine Nat.pos_of_ne_zero fun hzero => hunit ?_
        exact Int.natCast_dvd_natCast.mpr (Nat.dvd_of_mod_eq_zero hzero)
      have hparts := Nat.div_add_mod fire size.unit
      obtain ⟨nowMs, hnow⟩ := exists_toInt
        ((size.unit * (fire / size.unit) : ℕ) : ℤ) (by omega) (by omega)
      refine ⟨nowMs, by rw [hnow]; omega, ?_⟩
      rw [UInt64.le_iff_toNat_le, toNat_bucket, toNat_bucket, hsum, hnow,
        Int.toNat_natCast, Int.toNat_natCast,
        Nat.mul_div_cancel_left _ (unit_pos size)]
    · have hgreater : enqueued.toInt + delay.toInt ≠ -2 ^ 63 :=
        fun hleast => hopens ⟨hoverflow, .inr hleast⟩
      obtain ⟨nowMs, hnow⟩ := exists_toInt (-2 ^ 63) (by omega) (by omega)
      refine ⟨nowMs, by rw [hnow]; omega, ?_⟩
      rw [UInt64.le_iff_toNat_le, toNat_bucket, hsum, Int.toNat_of_nonpos (by omega)]
      simp
  · have hsum : (enqueued + delay).toInt =
        enqueued.toInt + delay.toInt - 2 ^ 64 := toInt_add_of_overflow (by omega)
    have hdelayBound := delay.toInt_lt
    have henqueuedBound := enqueued.toInt_lt
    refine ⟨0, by simp; omega, ?_⟩
    rw [UInt64.le_iff_toNat_le, toNat_bucket, hsum, Int.toNat_of_nonpos (by omega)]
    simp

/-- A message is never handed over early exactly when its fire time is
representable and is the first millisecond of its bucket. -/
theorem never_early_iff (lib : Libraries Index) (size : TimeBucketSize)
    (enqueuedAtUnixMs delayMs : Int64)
    (hlive : ∃ (msg : Message Index) (item : StoreBatchItem),
      msg.delayMs = delayMs ∧ msg.ttlMs = 0 ∧
      Becomes lib size enqueuedAtUnixMs msg item ∧
      lib.unmarshal item.msg = some (storedMessage enqueuedAtUnixMs msg)) :
    NeverEarly lib size enqueuedAtUnixMs delayMs ↔
      OpensBucket size (enqueuedAtUnixMs.toInt + delayMs.toInt) := by
  constructor
  · intro hnever
    by_contra hopens
    obtain ⟨msg, item, rfl, httl, hbecomes, hdecodes⟩ := hlive
    have hdelay : 0 ≤ msg.delayMs.toInt := by
      simpa using Int64.le_iff_toInt_le.mp (Int64.not_lt.mp hbecomes.1)
    obtain ⟨nowMs, hearly, hbucket⟩ := exists_earlier hdelay hopens
    obtain ⟨hitem, hhash, -⟩ := raftItem_eq_ok_iff.mp hbecomes.2.2
    have hstored : ((∅ : DB).insert (eventKey item.bucket item.topicHash 1)
        item.msg)[eventKey item.bucket item.topicHash 1]? = some item.msg := by
      simp
    have hdue : (eventKey item.bucket item.topicHash 1, item.msg) ∈
        dueScan ((∅ : DB).insert (eventKey item.bucket item.topicHash 1) item.msg)
          (lib.topicHash msg.topic) (size.bucket nowMs) := by
      refine eventKey_mem_dueScan_iff.mpr ⟨hstored, hhash, ?_⟩
      rw [hitem]
      exact hbucket
    have halive : isExpired (storedMessage enqueuedAtUnixMs msg) nowMs = false := by
      simp [isExpired, storedMessage, httl]
    have hfree : ¬ (newDispatcher 0).Suppresses
        (eventKey item.bucket item.topicHash 1) 0 := by
      simp [Dispatcher.Suppresses, newDispatcher]
    have hoffer := offerIn_mem_offers lib msg.topic nowMs
      (fun _ => ⟨0, 0, .sorted⟩) newHub hdue hfree hdecodes halive
    have hlate := hnever msg item rfl hbecomes _ 1 hstored _ _ _ _ nowMs _
      hoffer rfl
    omega
  · intro hopens msg item hdelay hbecomes db eventID hstored turns hub dispatcher
      topic nowMs offer hoffer hkey
    obtain ⟨value, hentry, -⟩ :=
      (madeFrom_of_mem_offers lib topic nowMs turns hoffer).entry
    rw [hkey, eventKey_mem_dueScan_iff] at hentry
    obtain ⟨hitem, -⟩ := raftItem_eq_ok_iff.mp hbecomes.2.2
    have hnonneg : 0 ≤ delayMs.toInt := by
      rw [← hdelay]
      simpa using Int64.le_iff_toInt_le.mp (Int64.not_lt.mp hbecomes.1)
    have hlower := enqueuedAtUnixMs.le_toInt
    have hsum := toInt_add (by omega) hopens.1
    rw [← hsum] at hopens ⊢
    apply le_of_bucket_le hopens
    rw [← hdelay]
    exact hitem ▸ hentry.2.2

/-- A message without ttl whose delay is the largest that the producer admits. -/
def longDelayed : Message Bytes := ⟨"orders", [1], 9223372036854775807, 0, []⟩

def longDelayedLibraries : Libraries Bytes :=
  tableLibraries (fun _ => 7) [([1], storedMessage 1 longDelayed)]

def millisecondBuckets : TimeBucketSize := ⟨0, valid_zero⟩

def longDelayedItem : StoreBatchItem := ⟨0, 7, [], [1]⟩

theorem longDelayed_becomes :
    Becomes longDelayedLibraries millisecondBuckets 1 longDelayed
      longDelayedItem := by
  refine ⟨by decide, by decide, ?_⟩
  decide +kernel

theorem longDelayed_live :
    ∃ (msg : Message Bytes) (item : StoreBatchItem),
      msg.delayMs = longDelayed.delayMs ∧ msg.ttlMs = 0 ∧
      Becomes longDelayedLibraries millisecondBuckets 1 msg item ∧
      longDelayedLibraries.unmarshal item.msg = some (storedMessage 1 msg) :=
  ⟨longDelayed, longDelayedItem, rfl, rfl, longDelayed_becomes, by decide +kernel⟩

theorem never_early_iff_longDelayed :
    NeverEarly longDelayedLibraries millisecondBuckets 1 longDelayed.delayMs ↔
      OpensBucket millisecondBuckets
        ((1 : Int64).toInt + longDelayed.delayMs.toInt) :=
  never_early_iff _ _ _ _ longDelayed_live

/-- The sum of the enqueue time and the delay wraps to a negative fire time: the
message is stored in bucket 0 and reaches a consumer one millisecond after it
was published. -/
theorem overflowing_delay_delivered_at_once :
    Becomes longDelayedLibraries millisecondBuckets 1 longDelayed
        longDelayedItem ∧
      (∃ offer ∈ (dispatchTopic longDelayedLibraries millisecondBuckets
          ((∅ : DB).insert (eventKey 0 7 1) [1]) (fun _ => ⟨0, 0, .sorted⟩)
          (newHub.register ⟨"c1", "orders", ""⟩) (newDispatcher 0) "orders" 2).offers,
        offer.key = eventKey 0 7 1 ∧ offer.msg = storedMessage 1 longDelayed ∧
          offer.receivers = [⟨"c1", "orders", ""⟩]) ∧
      (2 : Int64).toInt < (1 : Int64).toInt + longDelayed.delayMs.toInt := by
  refine ⟨longDelayed_becomes, ?_, by decide⟩
  decide +kernel

end FutureQ.Punctual
