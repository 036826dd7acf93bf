import Mathlib

/-!
# Fixed-width byte orders

Wire formats and sortable storage keys are built from machine integers written
as a fixed number of bytes.  This module gives the big-endian and little-endian
encodings of natural numbers at an arbitrary width, proves that encoding and
decoding are mutually inverse up to the width, and specialises both to the
16-, 32- and 64-bit words of the host language.
-/

namespace FutureQ.ByteOrder

abbrev Bytes := List UInt8

instance lawfulBEqBytes : LawfulBEq Bytes := List.instLawfulBEq

/-- The `width` big-endian bytes of `value`; bits above `8 * width` are
dropped. -/
def encodeBE : ℕ → ℕ → Bytes
  | 0, _ => []
  | width + 1, value =>
      UInt8.ofNat (value / 256 ^ width) :: encodeBE width value

/-- The natural number with the given big-endian bytes. -/
def decodeBE : Bytes → ℕ
  | [] => 0
  | byte :: bytes => byte.toNat * 256 ^ bytes.length + decodeBE bytes

def encodeLE (width value : ℕ) : Bytes :=
  (encodeBE width value).reverse

def decodeLE (bytes : Bytes) : ℕ :=
  decodeBE bytes.reverse

@[simp]
theorem length_encodeBE (width value : ℕ) :
    (encodeBE width value).length = width := by
  induction width with
  | zero => rfl
  | succ width ih => simp [encodeBE, ih]

@[simp]
theorem length_encodeLE (width value : ℕ) :
    (encodeLE width value).length = width := by
  simp [encodeLE]

theorem decodeBE_lt (bytes : Bytes) :
    decodeBE bytes < 256 ^ bytes.length := by
  induction bytes with
  | nil => simp [decodeBE]
  | cons byte bytes ih =>
      have hbyte : byte.toNat ≤ 255 := Nat.le_of_lt_succ byte.toNat_lt
      have hhead : byte.toNat * 256 ^ bytes.length ≤
          255 * 256 ^ bytes.length := Nat.mul_le_mul_right _ hbyte
      simp only [decodeBE, List.length_cons, pow_succ]
      omega

theorem decodeBE_encodeBE (width value : ℕ) :
    decodeBE (encodeBE width value) = value % 256 ^ width := by
  induction width with
  | zero => simp [encodeBE, decodeBE, Nat.mod_one]
  | succ width ih =>
      have hsplit : value % 256 ^ (width + 1) =
          value % 256 ^ width + 256 ^ width * (value / 256 ^ width % 256) := by
        rw [pow_succ, Nat.mod_mul]
      simp only [encodeBE, decodeBE, ih, length_encodeBE, UInt8.toNat_ofNat']
      rw [hsplit, Nat.add_comm, Nat.mul_comm]

theorem decodeBE_encodeBE_of_lt {width value : ℕ}
    (hvalue : value < 256 ^ width) :
    decodeBE (encodeBE width value) = value := by
  rw [decodeBE_encodeBE, Nat.mod_eq_of_lt hvalue]

/-- Adding a multiple of the width's modulus does not change the encoding. -/
theorem encodeBE_add_mul (width value multiple : ℕ) :
    encodeBE width (multiple * 256 ^ width + value) = encodeBE width value := by
  induction width generalizing multiple with
  | zero => rfl
  | succ width ih =>
      have hpow : multiple * 256 ^ (width + 1) + value =
          multiple * 256 * 256 ^ width + value := by
        rw [pow_succ]
        ring
      have hdiv : (multiple * 256 * 256 ^ width + value) / 256 ^ width =
          multiple * 256 + value / 256 ^ width := by
        have hpos : 0 < 256 ^ width := by positivity
        rw [Nat.mul_comm (multiple * 256), Nat.mul_add_div hpos]
      have hbyte : UInt8.ofNat (multiple * 256 + value / 256 ^ width) =
          UInt8.ofNat (value / 256 ^ width) := by
        apply UInt8.toNat_inj.mp
        simp only [UInt8.toNat_ofNat']
        omega
      rw [hpow]
      simp only [encodeBE, hdiv, hbyte, ih (multiple * 256)]

/-- Every byte string is the encoding of the number it denotes. -/
theorem encodeBE_decodeBE (bytes : Bytes) :
    encodeBE bytes.length (decodeBE bytes) = bytes := by
  induction bytes with
  | nil => rfl
  | cons byte bytes ih =>
      have hpos : 0 < 256 ^ bytes.length := by positivity
      have hhead : (byte.toNat * 256 ^ bytes.length + decodeBE bytes) /
          256 ^ bytes.length = byte.toNat := by
        rw [Nat.mul_comm, Nat.mul_add_div hpos,
          Nat.div_eq_of_lt (decodeBE_lt bytes), Nat.add_zero]
      simp only [List.length_cons, encodeBE, decodeBE, hhead,
        encodeBE_add_mul, ih, UInt8.ofNat_toNat]

theorem decodeLE_encodeLE_of_lt {width value : ℕ}
    (hvalue : value < 256 ^ width) :
    decodeLE (encodeLE width value) = value := by
  simp [decodeLE, encodeLE, decodeBE_encodeBE_of_lt hvalue]

theorem encodeLE_decodeLE (bytes : Bytes) :
    encodeLE bytes.length (decodeLE bytes) = bytes := by
  rw [encodeLE, decodeLE, ← List.length_reverse, encodeBE_decodeBE,
    List.reverse_reverse]

theorem decodeLE_lt (bytes : Bytes) :
    decodeLE bytes < 256 ^ bytes.length := by
  simpa [decodeLE] using decodeBE_lt bytes.reverse

/-! ## Machine words -/

def putUint16 (value : UInt16) : Bytes := encodeBE 2 value.toNat

def putUint32 (value : UInt32) : Bytes := encodeBE 4 value.toNat

def putUint64 (value : UInt64) : Bytes := encodeBE 8 value.toNat

def uint16 (bytes : Bytes) : UInt16 := UInt16.ofNat (decodeBE (bytes.take 2))

def uint32 (bytes : Bytes) : UInt32 := UInt32.ofNat (decodeBE (bytes.take 4))

def uint64 (bytes : Bytes) : UInt64 := UInt64.ofNat (decodeBE (bytes.take 8))

@[simp]
theorem length_putUint16 (value : UInt16) : (putUint16 value).length = 2 :=
  length_encodeBE 2 _

@[simp]
theorem length_putUint32 (value : UInt32) : (putUint32 value).length = 4 :=
  length_encodeBE 4 _

@[simp]
theorem length_putUint64 (value : UInt64) : (putUint64 value).length = 8 :=
  length_encodeBE 8 _

@[simp]
theorem uint16_putUint16_append (value : UInt16) (rest : Bytes) :
    uint16 (putUint16 value ++ rest) = value := by
  have htake : (putUint16 value ++ rest).take 2 = putUint16 value := by simp
  have hdecode : decodeBE (putUint16 value) = value.toNat :=
    decodeBE_encodeBE_of_lt value.toNat_lt
  rw [uint16, htake, hdecode, UInt16.ofNat_toNat]

@[simp]
theorem uint32_putUint32_append (value : UInt32) (rest : Bytes) :
    uint32 (putUint32 value ++ rest) = value := by
  have htake : (putUint32 value ++ rest).take 4 = putUint32 value := by simp
  have hdecode : decodeBE (putUint32 value) = value.toNat :=
    decodeBE_encodeBE_of_lt value.toNat_lt
  rw [uint32, htake, hdecode, UInt32.ofNat_toNat]

@[simp]
theorem uint64_putUint64_append (value : UInt64) (rest : Bytes) :
    uint64 (putUint64 value ++ rest) = value := by
  have htake : (putUint64 value ++ rest).take 8 = putUint64 value := by simp
  have hdecode : decodeBE (putUint64 value) = value.toNat :=
    decodeBE_encodeBE_of_lt value.toNat_lt
  rw [uint64, htake, hdecode, UInt64.ofNat_toNat]

@[simp]
theorem uint16_putUint16 (value : UInt16) : uint16 (putUint16 value) = value := by
  simpa using uint16_putUint16_append value []

@[simp]
theorem uint32_putUint32 (value : UInt32) : uint32 (putUint32 value) = value := by
  simpa using uint32_putUint32_append value []

@[simp]
theorem uint64_putUint64 (value : UInt64) : uint64 (putUint64 value) = value := by
  simpa using uint64_putUint64_append value []

theorem putUint16_uint16 {bytes : Bytes} (hlength : bytes.length = 2) :
    putUint16 (uint16 bytes) = bytes := by
  have hlt : decodeBE bytes < 2 ^ 16 := by
    simpa [hlength] using decodeBE_lt bytes
  have htake : bytes.take 2 = bytes := List.take_of_length_le hlength.le
  rw [putUint16, uint16, htake, UInt16.toNat_ofNat_of_lt' hlt]
  simpa [hlength] using encodeBE_decodeBE bytes

theorem putUint32_uint32 {bytes : Bytes} (hlength : bytes.length = 4) :
    putUint32 (uint32 bytes) = bytes := by
  have hlt : decodeBE bytes < 2 ^ 32 := by
    simpa [hlength] using decodeBE_lt bytes
  have htake : bytes.take 4 = bytes := List.take_of_length_le hlength.le
  rw [putUint32, uint32, htake, UInt32.toNat_ofNat_of_lt' hlt]
  simpa [hlength] using encodeBE_decodeBE bytes

theorem putUint64_uint64 {bytes : Bytes} (hlength : bytes.length = 8) :
    putUint64 (uint64 bytes) = bytes := by
  have hlt : decodeBE bytes < 2 ^ 64 := by
    simpa [hlength] using decodeBE_lt bytes
  have htake : bytes.take 8 = bytes := List.take_of_length_le hlength.le
  rw [putUint64, uint64, htake, UInt64.toNat_ofNat_of_lt' hlt]
  simpa [hlength] using encodeBE_decodeBE bytes

theorem putUint64_injective : Function.Injective putUint64 := by
  intro left right heq
  rw [← uint64_putUint64 left, heq, uint64_putUint64]

/-! ## Byte order and numeric order -/

theorem compare_cons (left right : UInt8) (lefts rights : Bytes) :
    compare (left :: lefts) (right :: rights) =
      (compare left right).then (compare lefts rights) :=
  List.compareLex_cons_cons

theorem compare_nil_left {bytes : Bytes} (hne : bytes ≠ []) :
    compare [] bytes = .lt := by
  cases bytes with
  | nil => exact absurd rfl hne
  | cons byte bytes => rfl

theorem compare_nil_right {bytes : Bytes} (hne : bytes ≠ []) :
    compare bytes [] = .gt := by
  cases bytes with
  | nil => exact absurd rfl hne
  | cons byte bytes => rfl

/-- Strings with fronts of equal length are compared front first. -/
theorem compare_append {left right : Bytes} (hlength : left.length = right.length)
    (leftRest rightRest : Bytes) :
    compare (left ++ leftRest) (right ++ rightRest) =
      (compare left right).then (compare leftRest rightRest) := by
  induction left generalizing right with
  | nil =>
      have hright : right = [] := List.length_eq_zero_iff.mp hlength.symm
      subst hright
      rfl
  | cons byte bytes ih =>
      cases right with
      | nil => cases hlength
      | cons other others =>
          have htail : bytes.length = others.length := by simpa using hlength
          rw [List.cons_append, List.cons_append, compare_cons, compare_cons,
            ih htail]
          cases compare byte other <;> rfl

/-- On strings of one length the byte order is the order of the numbers. -/
theorem compare_eq_decodeBE {left right : Bytes}
    (hlength : left.length = right.length) :
    compare left right = compare (decodeBE left) (decodeBE right) := by
  induction left generalizing right with
  | nil =>
      have hright : right = [] := List.length_eq_zero_iff.mp hlength.symm
      subst hright
      rfl
  | cons byte bytes ih =>
      cases right with
      | nil => cases hlength
      | cons other others =>
          have htail : bytes.length = others.length := by simpa using hlength
          have hbytes := decodeBE_lt bytes
          have hothers := decodeBE_lt others
          rw [compare_cons, ih htail, decodeBE, decodeBE, ← htail,
            UInt8.compare_eq_toNat_compare_toNat]
          rw [← htail] at hothers
          rcases Nat.lt_trichotomy byte.toNat other.toNat with hlt | heq | hgt
          · have hstep : (byte.toNat + 1) * 256 ^ bytes.length ≤
                other.toNat * 256 ^ bytes.length := Nat.mul_le_mul_right _ hlt
            rw [Nat.compare_eq_lt.mpr hlt, Ordering.lt_then, eq_comm,
              Nat.compare_eq_lt]
            rw [Nat.add_mul] at hstep
            omega
          · rw [heq, Nat.compare_eq_eq.mpr rfl, Ordering.eq_then]
            rcases Nat.lt_trichotomy (decodeBE bytes) (decodeBE others) with
              hlt | heq | hgt
            · rw [Nat.compare_eq_lt.mpr hlt, eq_comm, Nat.compare_eq_lt]
              omega
            · rw [heq]
              simp
            · rw [Nat.compare_eq_gt.mpr hgt, eq_comm, Nat.compare_eq_gt]
              omega
          · have hstep : (other.toNat + 1) * 256 ^ bytes.length ≤
                byte.toNat * 256 ^ bytes.length := Nat.mul_le_mul_right _ hgt
            rw [Nat.compare_eq_gt.mpr hgt, Ordering.gt_then, eq_comm,
              Nat.compare_eq_gt]
            rw [Nat.add_mul] at hstep
            omega

theorem compare_putUint64 (left right : UInt64) :
    compare (putUint64 left) (putUint64 right) = compare left right := by
  rw [compare_eq_decodeBE (by simp), putUint64, putUint64,
    decodeBE_encodeBE_of_lt, decodeBE_encodeBE_of_lt,
    UInt64.compare_eq_toNat_compare_toNat]
  · exact right.toNat_lt
  · exact left.toNat_lt

theorem lt_of_compare_eq_lt {left right : UInt64}
    (hlt : compare left right = .lt) : left < right := by
  rw [UInt64.compare_eq_toNat_compare_toNat, Nat.compare_eq_lt] at hlt
  exact UInt64.lt_iff_toNat_lt.mpr hlt

end FutureQ.ByteOrder
