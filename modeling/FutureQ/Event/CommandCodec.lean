import FutureQ.Event.Commands

/-!
# The command codec

The encoders are compared with the plain concatenation of their fields, and
each decoder is characterised by the field it consumes: it succeeds exactly
where the encoding of its result stands, provided the lengths fit their
fields.  The round trips of both commands follow.
-/

namespace FutureQ.CommandCodec

open FutureQ.ByteOrder
open FutureQ.GoRuntime
open FutureQ.Buffer
open FutureQ.Commands

def encodeIndex (idx : Bytes) : Bytes :=
  putUint16 (UInt16.ofNat idx.length) ++ idx

def encodeItem (item : StoreBatchItem) : Bytes :=
  putUint64 item.bucket ++ putUint64 item.topicHash ++
    putUint16 (UInt16.ofNat item.indexes.length) ++
    item.indexes.flatMap encodeIndex ++
    putUint32 (UInt32.ofNat item.msg.length) ++ item.msg

def encodeStoreBatch (items : List StoreBatchItem) : Bytes :=
  [0] ++ putUint64 (UInt64.ofNat items.length) ++ items.flatMap encodeItem

def encodeDeleteBatch (keys : List Bytes) : Bytes :=
  [1] ++ putUint64 (UInt64.ofNat keys.length) ++ keys.flatten

/-- The lengths of an item fit the width of their fields. -/
structure Fits (item : StoreBatchItem) : Prop where
  indexCount : item.indexes.length < 2 ^ 16
  indexLength : ∀ idx ∈ item.indexes, idx.length < 2 ^ 16
  msgLength : item.msg.length < 2 ^ 32

instance (item : StoreBatchItem) : Decidable (Fits item) :=
  decidable_of_iff (item.indexes.length < 2 ^ 16 ∧
      (∀ idx ∈ item.indexes, idx.length < 2 ^ 16) ∧ item.msg.length < 2 ^ 32)
    ⟨fun h => ⟨h.1, h.2.1, h.2.2⟩,
      fun h => ⟨h.indexCount, h.indexLength, h.msgLength⟩⟩

/-! ## Encoders -/

theorem writeIndex_at (written idx : Bytes) (room : ℕ) :
    writeIndex (Cursor.at 0 written ((encodeIndex idx).length + room)) idx =
      .ok (Cursor.at 0 (written ++ encodeIndex idx) room) := by
  have hroom : (encodeIndex idx).length + room =
      (putUint16 (UInt16.ofNat idx.length)).length + (idx.length + room) := by
    simp [encodeIndex, Nat.add_assoc]
  rw [hroom, writeIndex, put_at]
  change (Cursor.at 0 _ _).copy idx = _
  rw [copy_at, encodeIndex, List.append_assoc]

theorem writeItem_at (written : Bytes) (item : StoreBatchItem) (room : ℕ) :
    writeItem (Cursor.at 0 written ((encodeItem item).length + room)) item =
      .ok (Cursor.at 0 (written ++ encodeItem item) room) := by
  have hroom : (encodeItem item).length + room =
      (putUint64 item.bucket).length + ((putUint64 item.topicHash).length +
        ((putUint16 (UInt16.ofNat item.indexes.length)).length +
          ((item.indexes.flatMap encodeIndex).length +
            ((putUint32 (UInt32.ofNat item.msg.length)).length +
              (item.msg.length + room))))) := by
    simp only [encodeItem, List.length_append]
    omega
  rw [hroom, writeItem, put_at]
  change ((Cursor.at 0 _ _).put (putUint64 item.topicHash) >>= _) = _
  rw [put_at]
  change ((Cursor.at 0 _ _).put (putUint16 _) >>= _) = _
  rw [put_at]
  change (item.indexes.foldlM writeIndex _ >>= _) = _
  rw [foldlM_at 0 encodeIndex writeIndex writeIndex_at]
  change ((Cursor.at 0 _ _).put (putUint32 _) >>= _) = _
  rw [put_at]
  change (Cursor.at 0 _ _).copy item.msg = _
  rw [copy_at]
  simp only [encodeItem, List.append_assoc]

theorem storeBatchSize_eq (items : List StoreBatchItem) :
    storeBatchSize items = (encodeStoreBatch items).length := by
  have hindexes : ∀ (indexes : List Bytes) (size : ℕ),
      indexes.foldl (fun size idx => size + (2 + idx.length)) size =
        size + (indexes.flatMap encodeIndex).length := by
    intro indexes
    induction indexes with
    | nil => simp
    | cons idx indexes ih =>
        intro size
        rw [List.foldl_cons, ih]
        simp [encodeIndex]
        omega
  have hitems : ∀ (items : List StoreBatchItem) (size : ℕ),
      items.foldl
        (fun size item =>
          (item.indexes.foldl (fun size idx => size + (2 + idx.length))
            (size + (8 + 8 + 2))) + (4 + item.msg.length)) size =
        size + (items.flatMap encodeItem).length := by
    intro items
    induction items with
    | nil => simp
    | cons item items ih =>
        intro size
        rw [List.foldl_cons, ih, hindexes]
        simp only [List.flatMap_cons, encodeItem, List.length_append,
          length_putUint64, length_putUint16, length_putUint32]
        omega
  rw [storeBatchSize, hitems, encodeStoreBatch]
  simp
  omega

/-- The store encoder never leaves its buffer and produces the concatenation of
its fields. -/
theorem marshalStoreBatchCmd_eq (items : List StoreBatchItem) :
    marshalStoreBatchCmd items = .ok (encodeStoreBatch items) := by
  have hstart : (⟨List.replicate (storeBatchSize items) 0, 0⟩ : Cursor UInt8) =
      Cursor.at 0 [] (([0] : Bytes).length +
        ((putUint64 (UInt64.ofNat items.length)).length +
          ((items.flatMap encodeItem).length + 0))) := by
    rw [storeBatchSize_eq]
    simp only [Cursor.at, encodeStoreBatch, List.nil_append, List.length_append,
      List.length_nil, Nat.add_zero, Nat.add_assoc]
  rw [marshalStoreBatchCmd, hstart]
  change ((Cursor.at 0 _ _).put [0] >>= _) = _
  rw [put_at]
  change ((Cursor.at 0 _ _).put (putUint64 _) >>= _) = _
  rw [put_at]
  change (items.foldlM writeItem _ >>= _) = _
  rw [foldlM_at 0 encodeItem writeItem writeItem_at]
  simp [Cursor.at, encodeStoreBatch, bind, Except.bind, pure, Except.pure]

/-- A 24-byte key is accepted by the delete encoder. -/
theorem writeKey_at {key : Bytes} (hkey : key.length = 24) (written : Bytes)
    (room : ℕ) :
    writeKey (Cursor.at 0 written (key.length + room)) key =
      .ok (Cursor.at 0 (written ++ key) room) := by
  rw [writeKey, if_neg (by simp [hkey]), put_at]

theorem foldlM_writeKey_at {keys : List Bytes}
    (hkeys : ∀ key ∈ keys, key.length = 24) (written : Bytes) (room : ℕ) :
    keys.foldlM writeKey (Cursor.at 0 written (keys.flatten.length + room)) =
      .ok (Cursor.at 0 (written ++ keys.flatten) room) := by
  induction keys generalizing written with
  | nil => simp [pure, Except.pure]
  | cons key keys ih =>
      have hroom : (key :: keys).flatten.length + room =
          key.length + (keys.flatten.length + room) := by
        simp [Nat.add_assoc]
      rw [hroom, List.foldlM_cons, writeKey_at (hkeys key List.mem_cons_self)]
      change keys.foldlM writeKey _ = _
      rw [ih fun other hother => hkeys other (List.mem_cons_of_mem _ hother)]
      simp

theorem length_flatten_keys {keys : List Bytes}
    (hkeys : ∀ key ∈ keys, key.length = 24) :
    keys.flatten.length = keys.length * 24 := by
  induction keys with
  | nil => rfl
  | cons key keys ih =>
      have htail := ih fun other hother => hkeys other (List.mem_cons_of_mem _ hother)
      simp only [List.flatten_cons, List.length_append, List.length_cons, htail,
        hkeys key List.mem_cons_self]
      omega

/-- The delete encoder writes its header and goes on to the keys. -/
theorem marshalDeleteBatchCmd_header (keys : List Bytes) :
    marshalDeleteBatchCmd keys =
      (keys.foldlM writeKey
        (Cursor.at 0 ([1] ++ putUint64 (UInt64.ofNat keys.length))
          (keys.length * 24)) >>= fun cursor => pure cursor.out) := by
  have hstart :
      (⟨List.replicate (1 + 8 + keys.length * 24) 0, 0⟩ : Cursor UInt8) =
      Cursor.at 0 [] (([1] : Bytes).length +
        ((putUint64 (UInt64.ofNat keys.length)).length + keys.length * 24)) := by
    simp [Cursor.at]
    omega
  rw [marshalDeleteBatchCmd, hstart]
  change ((Cursor.at 0 _ _).put [1] >>= _) = _
  rw [put_at]
  change ((Cursor.at 0 _ _).put (putUint64 _) >>= _) = _
  rw [put_at]
  rfl

theorem marshalDeleteBatchCmd_eq {keys : List Bytes}
    (hkeys : ∀ key ∈ keys, key.length = 24) :
    marshalDeleteBatchCmd keys = .ok (encodeDeleteBatch keys) := by
  have hkeysWritten := foldlM_writeKey_at hkeys
    ([1] ++ putUint64 (UInt64.ofNat keys.length)) 0
  rw [length_flatten_keys hkeys, Nat.add_zero] at hkeysWritten
  rw [marshalDeleteBatchCmd_header, hkeysWritten]
  simp [Cursor.at, encodeDeleteBatch, bind, Except.bind, pure, Except.pure]

theorem foldlM_writeKey_error {keys : List Bytes}
    (hbad : ∃ key ∈ keys, key.length ≠ 24) (written : Bytes) :
    ∃ length, keys.foldlM writeKey (Cursor.at 0 written (keys.length * 24)) =
      .error (.error (.deleteKeyLength length)) := by
  induction keys generalizing written with
  | nil => simp at hbad
  | cons key keys ih =>
      by_cases hkey : key.length = 24
      · have htail : ∃ other ∈ keys, other.length ≠ 24 := by
          simpa [hkey] using hbad
        obtain ⟨length, hlength⟩ := ih htail (written ++ key)
        have hroom : (key :: keys).length * 24 = key.length + keys.length * 24 := by
          rw [hkey, List.length_cons]
          omega
        refine ⟨length, ?_⟩
        rw [hroom, List.foldlM_cons, writeKey_at hkey]
        exact hlength
      · refine ⟨key.length, ?_⟩
        rw [List.foldlM_cons, writeKey, if_pos hkey]
        rfl

/-- One key of another length makes the delete encoder refuse the batch. -/
theorem marshalDeleteBatchCmd_error {keys : List Bytes}
    (hbad : ∃ key ∈ keys, key.length ≠ 24) :
    ∃ length, marshalDeleteBatchCmd keys =
      .error (.error (.deleteKeyLength length)) := by
  obtain ⟨length, hlength⟩ := foldlM_writeKey_error hbad
    ([1] ++ putUint64 (UInt64.ofNat keys.length))
  refine ⟨length, ?_⟩
  rw [marshalDeleteBatchCmd_header, hlength]
  rfl

/-! ## Decoders -/

theorem unmarshalIndex_eq_ok_iff {data idx : Bytes} {item index pos next : ℕ} :
    unmarshalIndex data item index pos = .ok (idx, next) ↔
      idx.length < 2 ^ 16 ∧ StandsAt data (encodeIndex idx) pos ∧
        next = pos + (encodeIndex idx).length := by
  simp only [unmarshalIndex, guard_eq_ok_iff, bind_eq_ok_iff, slice_eq_ok_iff,
    pure_eq_ok_iff, Prod.mk.injEq]
  constructor
  · rintro ⟨-, header, ⟨hheader, hwidth⟩, -, field, ⟨hfield, hlength⟩, rfl, rfl⟩
    have hheaderLength : header.length = 2 := by omega
    have hcount : (uint16 header).toNat = field.length := by omega
    have hprefix : putUint16 (UInt16.ofNat field.length) = header := by
      rw [← hcount, UInt16.ofNat_toNat, putUint16_uint16 hheaderLength]
    refine ⟨hcount ▸ UInt16.toNat_lt _, ?_, ?_⟩
    · rw [encodeIndex, standsAt_append, hprefix, hheaderLength]
      exact ⟨hheader, hfield⟩
    · simp only [encodeIndex, List.length_append, length_putUint16]
      omega
  · rintro ⟨hshort, hencoded, rfl⟩
    have hbound := hencoded.bound
    rw [encodeIndex, standsAt_append] at hencoded
    have hcount : (UInt16.ofNat idx.length).toNat = idx.length :=
      UInt16.toNat_ofNat_of_lt' hshort
    simp only [encodeIndex, List.length_append, length_putUint16] at hbound hencoded ⊢
    refine ⟨by omega, putUint16 (UInt16.ofNat idx.length), ⟨hencoded.1, by simp⟩, ?_⟩
    rw [uint16_putUint16, hcount]
    exact ⟨by omega, idx, ⟨hencoded.2, by omega⟩, rfl, by omega⟩

theorem unmarshalIndexes_eq_ok_iff {data : Bytes} {indexes : List Bytes}
    {item remaining index pos next : ℕ} (hpos : pos ≤ data.length) :
    unmarshalIndexes data item remaining index pos = .ok (indexes, next) ↔
      indexes.length = remaining ∧ (∀ idx ∈ indexes, idx.length < 2 ^ 16) ∧
        StandsAt data (indexes.flatMap encodeIndex) pos ∧
        next = pos + (indexes.flatMap encodeIndex).length := by
  induction remaining generalizing index pos indexes with
  | zero =>
      simp only [unmarshalIndexes, pure_eq_ok_iff, Prod.mk.injEq]
      constructor
      · rintro ⟨rfl, rfl⟩
        exact ⟨rfl, by simp, ⟨data.take pos, data.drop pos, by simp, by simpa⟩,
          by simp⟩
      · rintro ⟨hlength, -, -, rfl⟩
        have hnil := List.eq_nil_of_length_eq_zero hlength
        subst hnil
        simp
  | succ remaining ih =>
      simp only [unmarshalIndexes, bind_eq_ok_iff, pure_eq_ok_iff, Prod.exists,
        Prod.mk.injEq, unmarshalIndex_eq_ok_iff]
      constructor
      · rintro ⟨idx, middle, ⟨hshort, hidx, rfl⟩, tail, last, htail, rfl, rfl⟩
        obtain ⟨hlength, hall, hstands, rfl⟩ := (ih hidx.bound).mp htail
        refine ⟨by simp [hlength], List.forall_mem_cons.mpr ⟨hshort, hall⟩, ?_, ?_⟩
        · rw [List.flatMap_cons, standsAt_append]
          exact ⟨hidx, hstands⟩
        · rw [List.flatMap_cons, List.length_append, Nat.add_assoc]
      · rintro ⟨hlength, hall, hstands, rfl⟩
        obtain ⟨idx, tail, rfl⟩ := List.exists_cons_of_length_eq_add_one hlength
        rw [List.flatMap_cons, standsAt_append] at hstands
        obtain ⟨hshort, hall⟩ := List.forall_mem_cons.mp hall
        refine ⟨idx, _, ⟨hshort, hstands.1, rfl⟩, tail, _,
          (ih hstands.1.bound).mpr ⟨by simpa using hlength, hall, hstands.2, ?_⟩,
          rfl, rfl⟩
        rw [List.flatMap_cons, List.length_append, Nat.add_assoc]

theorem unmarshalItem_eq_ok_iff {data : Bytes} {value : StoreBatchItem}
    {item pos next : ℕ} :
    unmarshalItem data item pos = .ok (value, next) ↔
      Fits value ∧ StandsAt data (encodeItem value) pos ∧
        next = pos + (encodeItem value).length := by
  simp only [unmarshalItem, guard_eq_ok_iff, bind_eq_ok_iff, slice_eq_ok_iff,
    pure_eq_ok_iff, Prod.exists, Prod.mk.injEq]
  constructor
  · rintro ⟨-, bucket, ⟨hbucket, hbucketLength⟩, topic, ⟨htopic, htopicLength⟩,
      count, ⟨hcount, hcountLength⟩, indexes, middle, hindexes, -, width,
      ⟨hwidth, hwidthLength⟩, -, msg, ⟨hmsg, hmsgLength⟩, rfl, rfl⟩
    have hbucket8 : bucket.length = 8 := by omega
    have htopic8 : topic.length = 8 := by omega
    have hcount2 : count.length = 2 := by omega
    have hwidth4 : width.length = 4 := by omega
    have hbound := hcount.bound
    obtain ⟨hnumber, hshort, hstands, rfl⟩ :=
      (unmarshalIndexes_eq_ok_iff (by omega)).mp hindexes
    have hmsgCount : (uint32 width).toNat = msg.length := by omega
    have hcountField : putUint16 (UInt16.ofNat indexes.length) = count := by
      rw [hnumber, UInt16.ofNat_toNat, putUint16_uint16 hcount2]
    have hwidthField : putUint32 (UInt32.ofNat msg.length) = width := by
      rw [← hmsgCount, UInt32.ofNat_toNat, putUint32_uint32 hwidth4]
    have hencode : encodeItem ⟨uint64 bucket, uint64 topic, indexes, msg⟩ =
        bucket ++ topic ++ count ++ indexes.flatMap encodeIndex ++ width ++ msg := by
      simp only [encodeItem, putUint64_uint64 hbucket8, putUint64_uint64 htopic8,
        hcountField, hwidthField]
    refine ⟨⟨hnumber ▸ UInt16.toNat_lt _, hshort, hmsgCount ▸ UInt32.toNat_lt _⟩,
      ?_, ?_⟩
    · rw [hencode]
      simp only [standsAt_append, List.length_append, hbucket8, htopic8, hcount2,
        hwidth4, ← Nat.add_assoc]
      exact ⟨⟨⟨⟨⟨hbucket, htopic⟩, hcount⟩, hstands⟩, hwidth⟩, hmsg⟩
    · rw [hencode]
      simp only [List.length_append]
      omega
  · rintro ⟨hfits, hstands, rfl⟩
    have hbound := hstands.bound
    have hnumber : (UInt16.ofNat value.indexes.length).toNat = value.indexes.length :=
      UInt16.toNat_ofNat_of_lt' hfits.indexCount
    have hmsg : (UInt32.ofNat value.msg.length).toNat = value.msg.length :=
      UInt32.toNat_ofNat_of_lt' hfits.msgLength
    simp only [encodeItem, List.length_append, length_putUint64, length_putUint16,
      length_putUint32] at hbound
    simp only [encodeItem, standsAt_append, List.length_append, length_putUint64,
      length_putUint16, length_putUint32, ← Nat.add_assoc] at hstands
    obtain ⟨⟨⟨⟨⟨hbucket, htopic⟩, hcount⟩, hindexes⟩, hwidth⟩, hvalue⟩ := hstands
    refine ⟨by omega, _, ⟨hbucket, by simp⟩, _, ⟨htopic, by simp⟩, _,
      ⟨hcount, by simp⟩, value.indexes, _,
      (unmarshalIndexes_eq_ok_iff (by omega)).mpr
        ⟨by rw [uint16_putUint16, hnumber], hfits.indexLength, hindexes, rfl⟩,
      by omega, _, ⟨hwidth, by simp⟩, ?_⟩
    rw [uint32_putUint32, hmsg]
    refine ⟨by omega, value.msg, ⟨hvalue, rfl⟩, ?_, ?_⟩
    · simp
    · simp only [encodeItem, List.length_append, length_putUint64,
        length_putUint16, length_putUint32]
      omega

theorem unmarshalItems_eq_ok_iff {data : Bytes} {items : List StoreBatchItem}
    {remaining item pos : ℕ} (hpos : pos ≤ data.length) :
    unmarshalItems data remaining item pos = .ok items ↔
      items.length = remaining ∧ (∀ value ∈ items, Fits value) ∧
        StandsAt data (items.flatMap encodeItem) pos := by
  induction remaining generalizing item pos items with
  | zero =>
      simp only [unmarshalItems, pure_eq_ok_iff]
      constructor
      · rintro rfl
        exact ⟨rfl, by simp, ⟨data.take pos, data.drop pos, by simp, by simpa⟩⟩
      · rintro ⟨hlength, -, -⟩
        exact (List.eq_nil_of_length_eq_zero hlength).symm
  | succ remaining ih =>
      simp only [unmarshalItems, bind_eq_ok_iff, pure_eq_ok_iff, Prod.exists,
        unmarshalItem_eq_ok_iff]
      constructor
      · rintro ⟨value, middle, ⟨hfits, hvalue, rfl⟩, tail, htail, rfl⟩
        obtain ⟨hlength, hall, htail⟩ := (ih hvalue.bound).mp htail
        refine ⟨by simp [hlength], List.forall_mem_cons.mpr ⟨hfits, hall⟩, ?_⟩
        rw [List.flatMap_cons, standsAt_append]
        exact ⟨hvalue, htail⟩
      · rintro ⟨hlength, hall, hstands⟩
        obtain ⟨value, tail, rfl⟩ := List.exists_cons_of_length_eq_add_one hlength
        rw [List.flatMap_cons, standsAt_append] at hstands
        obtain ⟨hfits, hall⟩ := List.forall_mem_cons.mp hall
        exact ⟨value, _, ⟨hfits, hstands.1, rfl⟩, tail,
          (ih hstands.1.bound).mpr ⟨by simpa using hlength, hall, hstands.2⟩, rfl⟩

theorem commandType_eq_storeBatch {tag : UInt8} :
    commandType tag = .storeBatch ↔ tag = 0 := by
  unfold commandType
  split
  · simp_all
  · split <;> simp_all

theorem commandType_eq_deleteBatch {tag : UInt8} :
    commandType tag = .deleteBatch ↔ tag = 1 := by
  unfold commandType
  split
  · simp_all
  · split <;> simp_all

/-- The store decoder accepts exactly the encodings of items whose lengths fit
their fields, followed by anything, as long as the result can be allocated. -/
theorem unmarshalStoreBatchCmd_eq_ok_iff {data : Bytes}
    {items : List StoreBatchItem} :
    unmarshalStoreBatchCmd data = .ok items ↔
      storeBatchItemSize * items.length ≤ maxAlloc ∧
        (∀ item ∈ items, Fits item) ∧
        ∃ rest, data = encodeStoreBatch items ++ rest := by
  simp only [unmarshalStoreBatchCmd, guard_eq_ok_iff, bind_eq_ok_iff,
    slice_eq_ok_iff, ne_eq, not_not, commandType_eq_storeBatch, not_lt,
    ← standsAt_zero_iff]
  constructor
  · rintro ⟨hlength, htag, count, ⟨hcount, hwidth⟩, ⟨⟩, halloc, hitems⟩
    have hcount8 : count.length = 8 := by omega
    obtain ⟨-, -, halloc⟩ := makeSlice_eq_ok_iff.mp halloc
    obtain ⟨hnumber, hfits, hstands⟩ :=
      (unmarshalItems_eq_ok_iff (by omega)).mp hitems
    have hfield : putUint64 (UInt64.ofNat items.length) = count := by
      rw [hnumber, UInt64.ofNat_toNat, putUint64_uint64 hcount8]
    have htagField := standsAt_tag 0 (show 1 ≤ data.length by omega)
    rw [htag] at htagField
    refine ⟨by rw [hnumber]; exact_mod_cast halloc, hfits, ?_⟩
    rw [encodeStoreBatch, standsAt_append, standsAt_append, hfield]
    refine ⟨⟨htagField, hcount⟩, ?_⟩
    simpa [hcount8] using hstands
  · rintro ⟨halloc, hfits, hstands⟩
    have hbound := hstands.bound
    have hnumber : (UInt64.ofNat items.length).toNat = items.length := by
      apply UInt64.toNat_ofNat_of_lt'
      simp only [storeBatchItemSize, maxAlloc] at halloc
      change items.length < 2 ^ 64
      omega
    simp only [encodeStoreBatch, standsAt_append, List.length_append,
      List.length_singleton, length_putUint64, Nat.zero_add] at hstands hbound
    obtain ⟨⟨htag, hcount⟩, hitems⟩ := hstands
    refine ⟨by omega, headD_of_standsAt htag 0, _, ⟨hcount, by simp⟩, (), ?_, ?_⟩
    · rw [makeSlice_eq_ok_iff, uint64_putUint64, hnumber]
      exact ⟨le_refl 0, by omega, by exact_mod_cast halloc⟩
    · rw [unmarshalItems_eq_ok_iff (by omega), uint64_putUint64]
      exact ⟨hnumber.symm, hfits, hitems⟩

theorem unmarshalStoreBatchCmd_encode {items : List StoreBatchItem}
    (halloc : storeBatchItemSize * items.length ≤ maxAlloc)
    (hfits : ∀ item ∈ items, Fits item) :
    unmarshalStoreBatchCmd (encodeStoreBatch items) = .ok items :=
  unmarshalStoreBatchCmd_eq_ok_iff.mpr ⟨halloc, hfits, [], by simp⟩

theorem readKeys_eq_ok_iff {data : Bytes} {keys : List Bytes} {remaining i : ℕ}
    (hpos : 9 + i * 24 ≤ data.length) :
    readKeys data remaining i = .ok keys ↔
      keys.length = remaining ∧ (∀ key ∈ keys, key.length = 24) ∧
        StandsAt data keys.flatten (9 + i * 24) := by
  induction remaining generalizing i keys with
  | zero =>
      simp only [readKeys, pure_eq_ok_iff]
      constructor
      · rintro rfl
        exact ⟨rfl, by simp, ⟨data.take (9 + i * 24), data.drop (9 + i * 24),
          by simp, by simpa⟩⟩
      · rintro ⟨hlength, -, -⟩
        exact (List.eq_nil_of_length_eq_zero hlength).symm
  | succ remaining ih =>
      simp only [readKeys, bind_eq_ok_iff, pure_eq_ok_iff, slice_eq_ok_iff]
      have hnext : 9 + (i + 1) * 24 = 9 + i * 24 + 24 := by omega
      constructor
      · rintro ⟨key, ⟨hkey, hlength⟩, tail, htail, rfl⟩
        have hkey24 : key.length = 24 := by omega
        have hbound := hkey.bound
        obtain ⟨hcount, hall, hstands⟩ := (ih (by omega)).mp htail
        refine ⟨by simp [hcount], List.forall_mem_cons.mpr ⟨hkey24, hall⟩, ?_⟩
        rw [List.flatten_cons, standsAt_append, hkey24, ← hnext]
        exact ⟨hkey, hstands⟩
      · rintro ⟨hlength, hall, hstands⟩
        obtain ⟨key, tail, rfl⟩ := List.exists_cons_of_length_eq_add_one hlength
        obtain ⟨hkey, hall⟩ := List.forall_mem_cons.mp hall
        rw [List.flatten_cons, standsAt_append, hkey, ← hnext] at hstands
        have hbound := hstands.1.bound
        exact ⟨key, ⟨hstands.1, by omega⟩, tail,
          (ih (by omega)).mpr ⟨by simpa using hlength, hall, hstands.2⟩, rfl⟩

/-- The delete decoder accepts exactly the encodings of 24-byte keys, followed by
anything.  The signed product of its length check may wrap, but every count for
which it does is refused by the allocation that follows. -/
theorem unmarshalDeleteBatchCmd_eq_ok_iff {data : Bytes} {keys : List Bytes} :
    unmarshalDeleteBatchCmd data = .ok keys ↔
      sliceHeaderSize * keys.length ≤ maxAlloc ∧
        (∀ key ∈ keys, key.length = 24) ∧
        ∃ rest, data = encodeDeleteBatch keys ++ rest := by
  simp only [unmarshalDeleteBatchCmd, guard_eq_ok_iff, bind_eq_ok_iff,
    slice_eq_ok_iff, ne_eq, not_not, commandType_eq_deleteBatch, not_lt,
    ← standsAt_zero_iff]
  constructor
  · rintro ⟨hlength, htag, field, ⟨hfield, hwidth⟩, -, ⟨⟩, halloc, hkeys⟩
    have hfield8 : field.length = 8 := by omega
    obtain ⟨hnonneg, -, halloc⟩ := makeSlice_eq_ok_iff.mp halloc
    obtain ⟨hnumber, hall, hstands⟩ :=
      (readKeys_eq_ok_iff (by omega)).mp hkeys
    have hint : ((uint64 field).toInt64.toInt : ℤ) = keys.length := by omega
    have hcount : uint64 field = UInt64.ofNat keys.length := by
      have hround : (uint64 field).toInt64 = Int64.ofNat keys.length := by
        apply Int64.toInt_inj.mp
        rw [hint, Int64.toInt_ofNat_of_lt]
        simp only [sliceHeaderSize, maxAlloc] at halloc
        omega
      have hback := congrArg Int64.toUInt64 hround
      simpa using hback
    have hputField : putUint64 (UInt64.ofNat keys.length) = field := by
      rw [← hcount, putUint64_uint64 hfield8]
    have htagField := standsAt_tag 0 (show 1 ≤ data.length by omega)
    rw [htag] at htagField
    refine ⟨by rw [hint] at halloc; exact_mod_cast halloc, hall, ?_⟩
    rw [encodeDeleteBatch, standsAt_append, standsAt_append, hputField]
    refine ⟨⟨htagField, hfield⟩, ?_⟩
    simpa [hfield8] using hstands
  · rintro ⟨halloc, hall, hstands⟩
    have hbound := hstands.bound
    have hsmall : keys.length < 2 ^ 44 := by
      simp only [sliceHeaderSize, maxAlloc] at halloc
      omega
    have hcount : (UInt64.ofNat keys.length).toInt64.toInt = keys.length := by
      have hround : (UInt64.ofNat keys.length).toInt64 = Int64.ofNat keys.length := by
        simp
      rw [hround, Int64.toInt_ofNat_of_lt]
      omega
    have hproduct : (9 + (UInt64.ofNat keys.length).toInt64 * 24).toInt =
        9 + (keys.length : ℤ) * 24 := by
      have hinner : ((keys.length : ℤ) * 24).bmod (2 ^ 64) = keys.length * 24 :=
        Int.bmod_eq_of_le (by omega) (by omega)
      rw [Int64.toInt_add, Int64.toInt_mul, hcount]
      simp only [Int64.reduceToInt]
      rw [hinner, Int.bmod_eq_of_le (by omega) (by omega)]
    simp only [encodeDeleteBatch, standsAt_append, List.length_append,
      List.length_singleton, length_putUint64, Nat.zero_add,
      length_flatten_keys hall] at hstands hbound
    obtain ⟨⟨htag, hfield⟩, hkeys⟩ := hstands
    refine ⟨by omega, headD_of_standsAt htag 0, _, ⟨hfield, by simp⟩, ?_, (), ?_, ?_⟩
    · rw [uint64_putUint64, hproduct]
      omega
    · rw [makeSlice_eq_ok_iff, uint64_putUint64, hcount]
      exact ⟨by omega, le_refl _, by exact_mod_cast halloc⟩
    · rw [readKeys_eq_ok_iff (by omega), uint64_putUint64, hcount]
      exact ⟨by simp, hall, hkeys⟩

theorem unmarshalDeleteBatchCmd_encode {keys : List Bytes}
    (halloc : sliceHeaderSize * keys.length ≤ maxAlloc)
    (hkeys : ∀ key ∈ keys, key.length = 24) :
    unmarshalDeleteBatchCmd (encodeDeleteBatch keys) = .ok keys :=
  unmarshalDeleteBatchCmd_eq_ok_iff.mpr ⟨halloc, hkeys, [], by simp⟩

end FutureQ.CommandCodec
