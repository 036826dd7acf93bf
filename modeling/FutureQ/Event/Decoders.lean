import FutureQ.Event.Failures

/-!
# What the decoders return on

Both decoders hand the count field of a command to `make`: the store decoder
before it looks at any item, the delete decoder after a length check whose
signed product can wrap.  Apart from these two allocations every read is
checked, so the count field alone decides whether a log entry panics, and on
every other command the decoders accept exactly what the encoders write.
-/

namespace FutureQ.Decoders

open FutureQ.ByteOrder
open FutureQ.GoRuntime
open FutureQ.Buffer
open FutureQ.Storage
open FutureQ.Repository
open FutureQ.Commands
open FutureQ.CommandCodec
open FutureQ.StateMachine
open FutureQ.Journal
open FutureQ.Failures

/-! ## The count field -/

/-- The count field of a command with this tag and a complete header. -/
def countField (tag : UInt8) (data : Bytes) : Option UInt64 :=
  if data.length < 9 ∨ data.headD 0 ≠ tag then none
  else some (uint64 ((data.drop 1).take 8))

/-- The number of items that the store decoder asks `make` for. -/
def storeCount (data : Bytes) : Option ℕ := (countField 0 data).map UInt64.toNat

/-- The number of keys that the delete decoder asks `make` for, once the wrapped
product has passed the length check. -/
def deleteCount (data : Bytes) : Option ℤ :=
  match countField 1 data with
  | none => none
  | some count =>
      if (data.length : ℤ) < (9 + count.toInt64 * 24).toInt then none
      else some count.toInt64.toInt

/-- The bytes after the header can fill what `make` is asked for: an item takes
at least 22 bytes and a key 24. -/
structure Justified (data : Bytes) : Prop where
  store : ∀ count ∈ storeCount data, 9 + 22 * count ≤ data.length
  delete : ∀ count ∈ deleteCount data, 0 ≤ count ∧ 9 + 24 * count ≤ data.length

theorem slice_count {data : Bytes} (hlength : 9 ≤ data.length) :
    slice (ε := CommandError) data 1 9 = .ok ((data.drop 1).take 8) := by
  rw [slice, if_pos ⟨by omega, hlength⟩]

theorem countField_eq_none {tag : UInt8} {data : Bytes}
    (hheader : data.length < 9 ∨ data.headD 0 ≠ tag) : countField tag data = none :=
  if_pos hheader

theorem countField_eq_some {tag : UInt8} {data : Bytes} (hlength : ¬ data.length < 9)
    (htag : data.headD 0 = tag) :
    countField tag data = some (uint64 ((data.drop 1).take 8)) :=
  if_neg (not_or.mpr ⟨hlength, not_not.mpr htag⟩)

/-- A command without a count field is refused, and any other is decoded from
that field on. -/
theorem unmarshalStoreBatchCmd_cases (data : Bytes) :
    (storeCount data = none ∧ ∃ err, unmarshalStoreBatchCmd data = .error (.error err)) ∨
      ∃ count, storeCount data = some count ∧ unmarshalStoreBatchCmd data =
        (makeSlice storeBatchItemSize 0 count >>= fun _ =>
          unmarshalItems data count 0 9) := by
  by_cases hlength : data.length < 9
  · refine .inl ⟨by rw [storeCount, countField_eq_none (.inl hlength)]; rfl,
      .storeTooShort data.length, ?_⟩
    rw [unmarshalStoreBatchCmd, if_pos hlength]
    rfl
  by_cases htag : data.headD 0 = 0
  · refine .inr ⟨_, by rw [storeCount, countField_eq_some hlength htag]; rfl, ?_⟩
    have htype : ¬ commandType (data.headD 0) ≠ .storeBatch :=
      not_not.mpr (commandType_eq_storeBatch.mpr htag)
    rw [unmarshalStoreBatchCmd, if_neg hlength]
    simp only [if_neg htype, slice_count (not_lt.mp hlength), ok_bind]
  · refine .inl ⟨by rw [storeCount, countField_eq_none (.inr htag)]; rfl,
      .expectedStore (data.headD 0), ?_⟩
    have htype : commandType (data.headD 0) ≠ .storeBatch :=
      fun heq => htag (commandType_eq_storeBatch.mp heq)
    rw [unmarshalStoreBatchCmd, if_neg hlength]
    simp only [if_pos htype]
    rfl

theorem unmarshalDeleteBatchCmd_cases (data : Bytes) :
    (deleteCount data = none ∧
        ∃ err, unmarshalDeleteBatchCmd data = .error (.error err)) ∨
      ∃ count, deleteCount data = some count ∧ unmarshalDeleteBatchCmd data =
        (makeSlice sliceHeaderSize count count >>= fun _ =>
          readKeys data count.toNat 0) := by
  by_cases hlength : data.length < 9
  · refine .inl ⟨by rw [deleteCount, countField_eq_none (.inl hlength)],
      .deleteTooShort data.length, ?_⟩
    rw [unmarshalDeleteBatchCmd, if_pos hlength]
    rfl
  by_cases htag : data.headD 0 = 1
  · have hfield := countField_eq_some hlength htag
    have htype : ¬ commandType (data.headD 0) ≠ .deleteBatch :=
      not_not.mpr (commandType_eq_deleteBatch.mpr htag)
    rw [unmarshalDeleteBatchCmd, if_neg hlength]
    simp only [if_neg htype, slice_count (not_lt.mp hlength), ok_bind, deleteCount, hfield]
    split
    · exact .inl ⟨rfl, _, rfl⟩
    · exact .inr ⟨_, rfl, rfl⟩
  · refine .inl ⟨by rw [deleteCount, countField_eq_none (.inr htag)],
      .expectedDelete (data.headD 0), ?_⟩
    have htype : commandType (data.headD 0) ≠ .deleteBatch :=
      fun heq => htag (commandType_eq_deleteBatch.mp heq)
    rw [unmarshalDeleteBatchCmd, if_neg hlength]
    simp only [if_pos htype]
    rfl

/-! ## Every other read is checked -/

theorem returns_unmarshalIndex (data : Bytes) (item index pos : ℕ) :
    Returns (unmarshalIndex data item index pos) := by
  refine returns_guard fun hheader => ?_
  refine (returns_slice (by omega) (by omega)).bind fun width => ?_
  refine returns_guard fun hdata => ?_
  exact (returns_slice (by omega) (by omega)).bind fun idx => returns_ok _

theorem returns_unmarshalIndexes (data : Bytes) (item remaining index pos : ℕ) :
    Returns (unmarshalIndexes data item remaining index pos) := by
  induction remaining generalizing index pos with
  | zero => exact returns_ok _
  | succ remaining ih =>
      refine (returns_unmarshalIndex data item index pos).bind fun _ => ?_
      exact (ih _ _).bind fun _ => returns_ok _

theorem returns_unmarshalItem (data : Bytes) (item pos : ℕ) :
    Returns (unmarshalItem data item pos) := by
  refine returns_guard fun hheader => ?_
  refine (returns_slice (by omega) (by omega)).bind fun bucket => ?_
  refine (returns_slice (by omega) (by omega)).bind fun topicHash => ?_
  refine (returns_slice (by omega) (by omega)).bind fun numIdx => ?_
  refine (returns_unmarshalIndexes data item _ 0 _).bind fun indexes => ?_
  refine returns_guard fun hwidth => ?_
  refine (returns_slice (by omega) (by omega)).bind fun width => ?_
  refine returns_guard fun hvalue => ?_
  exact (returns_slice (by omega) (by omega)).bind fun value => returns_ok _

theorem returns_unmarshalItems (data : Bytes) (remaining item pos : ℕ) :
    Returns (unmarshalItems data remaining item pos) := by
  induction remaining generalizing item pos with
  | zero => exact returns_ok _
  | succ remaining ih =>
      refine (returns_unmarshalItem data item pos).bind fun _ => ?_
      exact (ih _ _).bind fun _ => returns_ok _

theorem returns_readKeys {data : Bytes} {remaining i : ℕ}
    (hroom : 9 + (i + remaining) * 24 ≤ data.length) :
    Returns (readKeys data remaining i) := by
  induction remaining generalizing i with
  | zero => exact returns_ok _
  | succ remaining ih =>
      refine (returns_slice (by omega) (by omega)).bind fun key => ?_
      exact (ih (by omega)).bind fun keys => returns_ok _

theorem returns_makeSlice_iff {ε α : Type} {elemSize : ℕ} {len cap : ℤ}
    {next : Unit → GoResult ε α} (hnext : Returns (next ())) :
    Returns (makeSlice elemSize len cap >>= next) ↔
      0 ≤ len ∧ len ≤ cap ∧ elemSize * cap ≤ maxAlloc := by
  constructor
  · intro hreturns
    by_contra hlimit
    unfold makeSlice at hreturns
    rw [if_neg hlimit] at hreturns
    split at hreturns
    · exact hreturns _ rfl
    · exact hreturns _ rfl
  · intro hlimit
    rw [makeSlice_eq_ok_iff.mpr hlimit, ok_bind]
    exact hnext

/-- The store decoder panics exactly on counts that cannot be allocated. -/
theorem returns_unmarshalStoreBatchCmd_iff {data : Bytes} :
    Returns (unmarshalStoreBatchCmd data) ↔
      ∀ count ∈ storeCount data, storeBatchItemSize * count ≤ maxAlloc := by
  obtain ⟨hnone, err, herr⟩ | ⟨count, hcount, hrest⟩ := unmarshalStoreBatchCmd_cases data
  · rw [hnone, herr]
    exact ⟨fun _ _ hmem => absurd hmem (Option.not_mem_none _),
      fun _ => returns_error err⟩
  · rw [hrest, returns_makeSlice_iff (returns_unmarshalItems _ _ _ _), hcount]
    constructor
    · rintro ⟨-, -, hlimit⟩ _ ⟨⟩
      exact_mod_cast hlimit
    · intro hlimit
      exact ⟨le_rfl, by omega, by exact_mod_cast hlimit count rfl⟩

/-- A count within the limit did not wrap, so the check was the real one. -/
theorem length_of_deleteCount {data : Bytes} {count : ℤ}
    (hcount : count ∈ deleteCount data) (hnonneg : 0 ≤ count)
    (hlimit : sliceHeaderSize * count ≤ maxAlloc) :
    9 + 24 * count ≤ data.length := by
  rw [deleteCount] at hcount
  split at hcount
  · cases hcount
  · rename_i field _
    split at hcount
    · cases hcount
    · rename_i hcheck
      cases hcount
      simp only [sliceHeaderSize, maxAlloc] at hlimit
      have hproduct : (9 + field.toInt64 * 24).toInt = 9 + field.toInt64.toInt * 24 := by
        have hinner : (field.toInt64.toInt * 24).bmod (2 ^ 64) =
            field.toInt64.toInt * 24 :=
          Int.bmod_eq_of_le (by omega) (by omega)
        rw [Int64.toInt_add, Int64.toInt_mul]
        simp only [Int64.reduceToInt]
        rw [hinner, Int.bmod_eq_of_le (by omega) (by omega)]
      rw [hproduct] at hcheck
      omega

/-- The delete decoder panics exactly on counts that pass the wrapped check and
cannot be allocated. -/
theorem returns_unmarshalDeleteBatchCmd_iff {data : Bytes} :
    Returns (unmarshalDeleteBatchCmd data) ↔
      ∀ count ∈ deleteCount data,
        0 ≤ count ∧ sliceHeaderSize * count ≤ maxAlloc := by
  obtain ⟨hnone, err, herr⟩ | ⟨count, hcount, hrest⟩ := unmarshalDeleteBatchCmd_cases data
  · rw [hnone, herr]
    exact ⟨fun _ _ hmem => absurd hmem (Option.not_mem_none _),
      fun _ => returns_error err⟩
  · rw [hrest, hcount]
    constructor
    · rintro hreturns _ ⟨⟩
      by_contra hlimit
      have hpanics : ¬ (0 ≤ count ∧ count ≤ count ∧ sliceHeaderSize * count ≤ maxAlloc) :=
        fun h => hlimit ⟨h.1, h.2.2⟩
      unfold makeSlice at hreturns
      rw [if_neg hpanics] at hreturns
      split at hreturns
      · exact hreturns _ rfl
      · exact hreturns _ rfl
    · intro hfits
      obtain ⟨hnonneg, hlimit⟩ := hfits count rfl
      have hroom := length_of_deleteCount hcount hnonneg hlimit
      rw [returns_makeSlice_iff (returns_readKeys (by omega))]
      exact ⟨hnonneg, le_rfl, hlimit⟩

/-- A Go slice: its length is an `int`. -/
abbrev GoSlice (α : Type) := { values : List α // values.length < 2 ^ 63 }

theorem marshalDeleteBatchCmd_eq_ok_iff {keys : List Bytes} {encoded : Bytes} :
    marshalDeleteBatchCmd keys = .ok encoded ↔
      (∀ key ∈ keys, key.length = 24) ∧ encoded = encodeDeleteBatch keys := by
  by_cases hkeys : ∀ key ∈ keys, key.length = 24
  · rw [marshalDeleteBatchCmd_eq hkeys, Except.ok.injEq]
    exact ⟨fun heq => ⟨hkeys, heq.symm⟩, fun hboth => hboth.2.symm⟩
  · have hbad : ∃ key ∈ keys, key.length ≠ 24 := by
      push Not at hkeys
      exact hkeys
    obtain ⟨length, hlength⟩ := marshalDeleteBatchCmd_error hbad
    rw [hlength]
    constructor
    · intro heq
      cases heq
    · rintro ⟨hall, -⟩
      exact absurd hall hkeys

theorem countField_append (tag : UInt8) (count : UInt64) (rest : Bytes) :
    countField tag ([tag] ++ putUint64 count ++ rest) = some count := by
  rw [countField_eq_some]
  · simp
  · simp
  · simp

theorem storeCount_encode (items : GoSlice StoreBatchItem) (rest : Bytes) :
    storeCount (encodeStoreBatch items.1 ++ rest) = some items.1.length := by
  rw [storeCount, encodeStoreBatch, List.append_assoc, countField_append,
    Option.map_some, UInt64.toNat_ofNat_of_lt' (lt_of_lt_of_le items.2 (by norm_num))]

theorem toInt_count (keys : GoSlice Bytes) :
    (UInt64.ofNat keys.1.length).toInt64.toInt = keys.1.length := by
  have hround : (UInt64.ofNat keys.1.length).toInt64 = Int64.ofNat keys.1.length := by
    simp
  rw [hround, Int64.toInt_ofNat_of_lt keys.2]

/-- The wrapped product is never more than the real one. -/
theorem wrapped_le (keys : GoSlice Bytes) :
    (9 + (UInt64.ofNat keys.1.length).toInt64 * 24).toInt ≤
      9 + (keys.1.length : ℤ) * 24 := by
  rw [Int64.toInt_add, Int64.toInt_mul, toInt_count]
  simp only [Int64.reduceToInt, Int.bmod_eq_emod]
  split <;> omega

theorem deleteCount_encode (keys : GoSlice Bytes)
    (hkeys : ∀ key ∈ keys.1, key.length = 24) (rest : Bytes) :
    deleteCount (encodeDeleteBatch keys.1 ++ rest) = some (keys.1.length : ℤ) := by
  have hfield : countField 1 (encodeDeleteBatch keys.1 ++ rest) =
      some (UInt64.ofNat keys.1.length) := by
    rw [encodeDeleteBatch, List.append_assoc, countField_append]
  have hlength : (encodeDeleteBatch keys.1 ++ rest).length =
      9 + keys.1.length * 24 + rest.length := by
    simp only [encodeDeleteBatch, List.length_append, List.length_singleton,
      length_putUint64, length_flatten_keys hkeys]
  have hwrapped := wrapped_le keys
  rw [deleteCount, hfield]
  simp only
  rw [if_neg (by omega), toInt_count]

/-! ## Encodings and decodings -/

section RoundTrip

variable {data : Bytes}

theorem unmarshalStoreBatchCmd_iff_marshal
    (hreturns : Returns (unmarshalStoreBatchCmd data)) (items : GoSlice StoreBatchItem) :
    unmarshalStoreBatchCmd data = .ok items.1 ↔
      (∀ item ∈ items.1, Fits item) ∧
        ∃ encoded rest, marshalStoreBatchCmd items.1 = .ok encoded ∧
          data = encoded ++ rest := by
  rw [unmarshalStoreBatchCmd_eq_ok_iff, marshalStoreBatchCmd_eq]
  constructor
  · rintro ⟨-, hfits, rest, rfl⟩
    exact ⟨hfits, _, rest, rfl, rfl⟩
  · rintro ⟨hfits, _, rest, ⟨⟩, rfl⟩
    refine ⟨?_, hfits, rest, rfl⟩
    exact returns_unmarshalStoreBatchCmd_iff.mp hreturns _ (storeCount_encode items rest)

theorem unmarshalDeleteBatchCmd_iff_marshal
    (hreturns : Returns (unmarshalDeleteBatchCmd data)) (keys : GoSlice Bytes) :
    unmarshalDeleteBatchCmd data = .ok keys.1 ↔
      ∃ encoded rest, marshalDeleteBatchCmd keys.1 = .ok encoded ∧
        data = encoded ++ rest := by
  simp only [unmarshalDeleteBatchCmd_eq_ok_iff, marshalDeleteBatchCmd_eq_ok_iff]
  constructor
  · rintro ⟨-, hkeys, rest, rfl⟩
    exact ⟨_, rest, ⟨hkeys, rfl⟩, rfl⟩
  · rintro ⟨_, rest, ⟨hkeys, rfl⟩, rfl⟩
    have hlimit := (returns_unmarshalDeleteBatchCmd_iff.mp hreturns _
      (deleteCount_encode keys hkeys rest)).2
    exact ⟨by exact_mod_cast hlimit, hkeys, rest, rfl⟩

theorem countField_append_right {tag : UInt8} {front : Bytes} {count : UInt64}
    (hcount : countField tag front = some count) (rest : Bytes) :
    countField tag (front ++ rest) = some count := by
  rw [countField] at hcount
  split at hcount
  · cases hcount
  · rename_i hheader
    obtain ⟨hlength, htag⟩ := not_or.mp hheader
    have hnonempty : front ≠ [] := by
      rintro rfl
      simp at hlength
    rw [countField_eq_some]
    · rw [← hcount, List.drop_append_of_le_length (by omega),
        List.take_append_of_le_length (by simp; omega)]
    · simp only [List.length_append]
      omega
    · rw [← not_not.mp htag]
      cases front with
      | nil => exact absurd rfl hnonempty
      | cons head tail => rfl

/-- A front of a command never asks for another number of items. -/
theorem returns_store_take (hreturns : Returns (unmarshalStoreBatchCmd data))
    (length : ℕ) : Returns (unmarshalStoreBatchCmd (data.take length)) := by
  rw [returns_unmarshalStoreBatchCmd_iff] at hreturns ⊢
  intro count hcount
  obtain ⟨field, hfield, rfl⟩ := Option.map_eq_some_iff.mp hcount
  apply hreturns
  have hwhole := countField_append_right hfield (data.drop length)
  rw [List.take_append_drop] at hwhole
  rw [storeCount, hwhole]
  rfl

theorem returns_delete_take {keys : GoSlice Bytes}
    (hkeys : ∀ key ∈ keys.1, key.length = 24)
    (hreturns : Returns (unmarshalDeleteBatchCmd (encodeDeleteBatch keys.1)))
    (length : ℕ) :
    Returns (unmarshalDeleteBatchCmd ((encodeDeleteBatch keys.1).take length)) := by
  rw [returns_unmarshalDeleteBatchCmd_iff] at hreturns ⊢
  intro count hcount
  rw [deleteCount] at hcount
  split at hcount
  · cases hcount
  · rename_i field hfield
    have hwhole := countField_append_right hfield ((encodeDeleteBatch keys.1).drop length)
    have hencode : countField 1 (encodeDeleteBatch keys.1) =
        some (UInt64.ofNat keys.1.length) := by
      rw [encodeDeleteBatch, countField_append]
    rw [List.take_append_drop, hencode, Option.some.injEq] at hwhole
    split at hcount
    · cases hcount
    · cases hcount
      rw [← hwhole, toInt_count]
      apply hreturns
      simpa using deleteCount_encode keys hkeys []

theorem unmarshalStoreBatchCmd_take {items : GoSlice StoreBatchItem}
    (hreturns : Returns (unmarshalStoreBatchCmd (encodeStoreBatch items.1)))
    (hfits : ∀ item ∈ items.1, Fits item) {length : ℕ}
    (hlength : length < (encodeStoreBatch items.1).length) :
    ∃ err, unmarshalStoreBatchCmd ((encodeStoreBatch items.1).take length) =
      .error (.error err) := by
  refine exists_error (returns_store_take hreturns length) fun others hothers => ?_
  obtain ⟨halloc, hothersFit, rest, hfront⟩ := unmarshalStoreBatchCmd_eq_ok_iff.mp hothers
  have hwhole : encodeStoreBatch items.1 =
      encodeStoreBatch others ++ (rest ++ (encodeStoreBatch items.1).drop length) := by
    rw [← List.append_assoc, ← hfront, List.take_append_drop]
  have hsame := unmarshalStoreBatchCmd_eq_ok_iff.mpr ⟨halloc, hothersFit, _, hwhole⟩
  have hitems := (unmarshalStoreBatchCmd_iff_marshal hreturns items).mpr
    ⟨hfits, _, [], marshalStoreBatchCmd_eq items.1, by simp⟩
  rw [hitems, Except.ok.injEq] at hsame
  subst hsame
  have hlengths := congrArg List.length hfront
  simp only [List.length_take, List.length_append] at hlengths
  omega

theorem unmarshalDeleteBatchCmd_take {keys : GoSlice Bytes}
    (hreturns : Returns (unmarshalDeleteBatchCmd (encodeDeleteBatch keys.1)))
    (hkeys : ∀ key ∈ keys.1, key.length = 24) {length : ℕ}
    (hlength : length < (encodeDeleteBatch keys.1).length) :
    ∃ err, unmarshalDeleteBatchCmd ((encodeDeleteBatch keys.1).take length) =
      .error (.error err) := by
  refine exists_error (returns_delete_take hkeys hreturns length) fun others hothers => ?_
  obtain ⟨halloc, hothers24, rest, hfront⟩ := unmarshalDeleteBatchCmd_eq_ok_iff.mp hothers
  have hwhole : encodeDeleteBatch keys.1 =
      encodeDeleteBatch others ++ (rest ++ (encodeDeleteBatch keys.1).drop length) := by
    rw [← List.append_assoc, ← hfront, List.take_append_drop]
  have hsame := unmarshalDeleteBatchCmd_eq_ok_iff.mpr ⟨halloc, hothers24, _, hwhole⟩
  have hwholeOk := (unmarshalDeleteBatchCmd_iff_marshal hreturns keys).mpr
    ⟨_, [], marshalDeleteBatchCmd_eq hkeys, by simp⟩
  rw [hwholeOk, Except.ok.injEq] at hsame
  subst hsame
  have hlengths := congrArg List.length hfront
  simp only [List.length_take, List.length_append] at hlengths
  omega

theorem returns_encodeStoreBatch {items : GoSlice StoreBatchItem}
    (hlimit : storeBatchItemSize * items.1.length ≤ maxAlloc) :
    Returns (unmarshalStoreBatchCmd (encodeStoreBatch items.1)) := by
  have hcount := storeCount_encode items []
  rw [List.append_nil] at hcount
  rw [returns_unmarshalStoreBatchCmd_iff, hcount]
  rintro _ ⟨⟩
  exact hlimit

theorem returns_encodeDeleteBatch {keys : GoSlice Bytes}
    (hkeys : ∀ key ∈ keys.1, key.length = 24)
    (hlimit : sliceHeaderSize * keys.1.length ≤ maxAlloc) :
    Returns (unmarshalDeleteBatchCmd (encodeDeleteBatch keys.1)) := by
  have hcount := deleteCount_encode keys hkeys []
  rw [List.append_nil] at hcount
  rw [returns_unmarshalDeleteBatchCmd_iff, hcount]
  rintro _ ⟨⟩
  exact ⟨Int.natCast_nonneg _, by exact_mod_cast hlimit⟩

end RoundTrip

/-- As long as its count can be allocated, a decoder accepts exactly the encodings of
values whose lengths fit their fields, followed by anything.  Every list of items is
encoded, and every list of 24-byte keys; decoding undoes encoding on the values whose
lengths fit alone, and a proper front of such an encoding is an error. -/
theorem decoders_accept_exactly_encodings :
    (∀ data, (∀ count ∈ storeCount data, storeBatchItemSize * count ≤ maxAlloc) →
      ∀ items : GoSlice StoreBatchItem, unmarshalStoreBatchCmd data = .ok items.1 ↔
        (∀ item ∈ items.1, Fits item) ∧
          ∃ encoded rest, marshalStoreBatchCmd items.1 = .ok encoded ∧
            data = encoded ++ rest) ∧
    (∀ data, (∀ count ∈ deleteCount data,
        0 ≤ count ∧ sliceHeaderSize * count ≤ maxAlloc) →
      ∀ keys : GoSlice Bytes, unmarshalDeleteBatchCmd data = .ok keys.1 ↔
        ∃ encoded rest, marshalDeleteBatchCmd keys.1 = .ok encoded ∧
          data = encoded ++ rest) ∧
    (∀ items : GoSlice StoreBatchItem,
      storeBatchItemSize * items.1.length ≤ maxAlloc →
      ∃ encoded, marshalStoreBatchCmd items.1 = .ok encoded ∧
        (unmarshalStoreBatchCmd encoded = .ok items.1 ↔
          ∀ item ∈ items.1, Fits item) ∧
        ((∀ item ∈ items.1, Fits item) → ∀ length < encoded.length,
          ∃ err, unmarshalStoreBatchCmd (encoded.take length) =
            .error (.error err))) ∧
    (∀ keys : GoSlice Bytes, sliceHeaderSize * keys.1.length ≤ maxAlloc →
      ((∃ encoded, marshalDeleteBatchCmd keys.1 = .ok encoded) ↔
        ∀ key ∈ keys.1, key.length = 24) ∧
      ∀ encoded, marshalDeleteBatchCmd keys.1 = .ok encoded →
        unmarshalDeleteBatchCmd encoded = .ok keys.1 ∧
        ∀ length < encoded.length,
          ∃ err, unmarshalDeleteBatchCmd (encoded.take length) =
            .error (.error err)) := by
  refine ⟨fun data hlimit => ?_, fun data hlimit => ?_, fun items hlimit => ?_,
    fun keys hlimit => ?_⟩
  · exact unmarshalStoreBatchCmd_iff_marshal (returns_unmarshalStoreBatchCmd_iff.mpr hlimit)
  · exact unmarshalDeleteBatchCmd_iff_marshal
      (returns_unmarshalDeleteBatchCmd_iff.mpr hlimit)
  · have hreturns := returns_encodeStoreBatch hlimit
    refine ⟨_, marshalStoreBatchCmd_eq items.1, ?_,
      fun hfits _ => unmarshalStoreBatchCmd_take hreturns hfits⟩
    rw [unmarshalStoreBatchCmd_iff_marshal hreturns, marshalStoreBatchCmd_eq]
    exact ⟨And.left, fun hfits => ⟨hfits, _, [], rfl, by simp⟩⟩
  · simp only [marshalDeleteBatchCmd_eq_ok_iff]
    refine ⟨by simp, ?_⟩
    rintro _ ⟨hkeys, rfl⟩
    have hreturns := returns_encodeDeleteBatch hkeys hlimit
    refine ⟨?_, fun _ => unmarshalDeleteBatchCmd_take hreturns hkeys⟩
    exact (unmarshalDeleteBatchCmd_iff_marshal hreturns keys).mpr
      ⟨_, [], marshalDeleteBatchCmd_eq hkeys, by simp⟩

/-- Two items, one of them with two indexes. -/
def twoItems : GoSlice StoreBatchItem :=
  ⟨[⟨5, 7, [[9], [1, 2]], [1, 2, 3]⟩, ⟨6, 8, [], []⟩], by decide⟩

def oneKey : GoSlice Bytes := ⟨[List.replicate 24 3], by decide⟩

/-- The encoding of two items is decoded with bytes behind it, and no front of it is; the
encoding of a key is decoded. -/
theorem decoders_accept_exactly_encodings_twoItems :
    (∃ encoded, marshalStoreBatchCmd twoItems.1 = .ok encoded ∧
      unmarshalStoreBatchCmd (encoded ++ [4, 5]) = .ok twoItems.1 ∧
      ∀ length < encoded.length, ∃ err, unmarshalStoreBatchCmd (encoded.take length) =
        .error (.error err)) ∧
    ∃ encoded, marshalDeleteBatchCmd oneKey.1 = .ok encoded ∧
      unmarshalDeleteBatchCmd encoded = .ok oneKey.1 := by
  obtain ⟨hdecode, -, hstore, hdelete⟩ := decoders_accept_exactly_encodings
  constructor
  · have hfits : ∀ item ∈ twoItems.1, Fits item := by decide +kernel
    obtain ⟨encoded, hencoded, -, hfronts⟩ := hstore twoItems (by decide)
    have hcount : ∀ count ∈ storeCount (encoded ++ [4, 5]),
        storeBatchItemSize * count ≤ maxAlloc := by
      rw [marshalStoreBatchCmd_eq, Except.ok.injEq] at hencoded
      rw [← hencoded, storeCount_encode]
      rintro _ ⟨⟩
      decide
    exact ⟨encoded, hencoded, (hdecode _ hcount twoItems).mpr
      ⟨hfits, encoded, _, hencoded, rfl⟩, hfronts hfits⟩
  · obtain ⟨hencodes, hround⟩ := hdelete oneKey (by decide)
    obtain ⟨encoded, hencoded⟩ := hencodes.mpr (by decide)
    exact ⟨encoded, hencoded, (hround encoded hencoded).1⟩

end FutureQ.Decoders
