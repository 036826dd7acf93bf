import FutureQ.Metadata.Commands

/-!
# The metadata codec

What a shard record looks like on the wire is a list of fields in which every
map is a list of entries.  The encoder produces such a list for any order of
its maps; the decoder accepts exactly the encodings of field lists whose
lengths fit, and answers the record they describe.  Encodings end by
themselves, so a command that was cut short is refused.
-/

namespace FutureQ.Metadata

open FutureQ.ByteOrder
open FutureQ.GoRuntime
open FutureQ.Buffer
open FutureQ.OrderedStore

abbrev Entries := List (UInt64 × Bytes)

def encodeAddr (addr : Bytes) : Bytes :=
  putUint16 (UInt16.ofNat addr.length) ++ addr

def encodeEntry (entry : UInt64 × Bytes) : Bytes :=
  putUint64 entry.1 ++ encodeAddr entry.2

def encodeEntries (entries : Entries) : Bytes :=
  putUint16 (UInt16.ofNat entries.length) ++ entries.flatMap encodeEntry

def ShortAddr (addr : Bytes) : Prop := addr.length < 2 ^ 16

/-- The lengths of a list of entries fit their fields. -/
structure FitsEntries (entries : Entries) : Prop where
  count : entries.length < 2 ^ 16
  addrs : ∀ entry ∈ entries, ShortAddr entry.2

/-- The map that a decoder builds from the entries it reads. -/
def ofEntries (entries : Entries) : NodeMap :=
  commit ∅ (entries.map fun entry => .set entry.1 entry.2)

/-- An `UpdateTopologyCmd` as it stands on the wire. -/
structure Fields where
  shardID : UInt64
  leaderID : UInt64
  term : UInt64
  epoch : UInt64
  configChangeID : UInt64
  leaderAddr : Bytes
  nodes : Entries
  nonVotings : Entries
  witnesses : Entries
  grpcAddrs : Entries

def Fields.encode (fields : Fields) : Bytes :=
  [0] ++ putUint64 fields.shardID ++ putUint64 fields.leaderID ++
    putUint64 fields.term ++ putUint64 fields.epoch ++
    putUint64 fields.configChangeID ++ encodeAddr fields.leaderAddr ++
    encodeEntries fields.nodes ++ encodeEntries fields.nonVotings ++
    encodeEntries fields.witnesses ++ encodeEntries fields.grpcAddrs

structure Fields.Fits (fields : Fields) : Prop where
  leaderAddr : ShortAddr fields.leaderAddr
  nodes : FitsEntries fields.nodes
  nonVotings : FitsEntries fields.nonVotings
  witnesses : FitsEntries fields.witnesses
  grpcAddrs : FitsEntries fields.grpcAddrs

def Fields.topology (fields : Fields) : ShardTopology where
  shardID := fields.shardID
  leaderID := fields.leaderID
  leaderAddr := fields.leaderAddr
  term := fields.term
  epoch := fields.epoch
  nodes := ofEntries fields.nodes
  nonVotings := ofEntries fields.nonVotings
  witnesses := ofEntries fields.witnesses
  grpcAddrs := ofEntries fields.grpcAddrs
  configChangeID := fields.configChangeID

def EntryOrder.entries {V : Type} (order : EntryOrder V)
    (m : Contents UInt64 V) : List (UInt64 × V) :=
  order.arrange m.toList

/-- The fields that the encoder writes. -/
def fieldsOf (order : RecordOrder) (t : ShardTopology) : Fields where
  shardID := t.shardID
  leaderID := t.leaderID
  term := t.term
  epoch := t.epoch
  configChangeID := t.configChangeID
  leaderAddr := t.leaderAddr
  nodes := order.nodes.entries t.nodes
  nonVotings := order.nonVotings.entries t.nonVotings
  witnesses := order.witnesses.entries t.witnesses
  grpcAddrs := order.grpcAddrs.entries t.grpcAddrs

/-- The lengths of a map fit their fields. -/
structure FitsMap (m : NodeMap) : Prop where
  count : m.size < 2 ^ 16
  addrs : ∀ (id : UInt64) (addr : Bytes), m[id]? = some addr → ShortAddr addr

structure FitsTopology (t : ShardTopology) : Prop where
  leaderAddr : ShortAddr t.leaderAddr
  nodes : FitsMap t.nodes
  nonVotings : FitsMap t.nonVotings
  witnesses : FitsMap t.witnesses
  grpcAddrs : FitsMap t.grpcAddrs

def encodeRegister (nodeID : UInt64) (grpcAddr : Bytes) : Bytes :=
  [1] ++ putUint64 nodeID ++ encodeAddr grpcAddr

/-! ## Maps and their entries -/

theorem EntryOrder.length_entries {V : Type} (order : EntryOrder V)
    (m : Contents UInt64 V) : (order.entries m).length = m.size := by
  rw [EntryOrder.entries, (order.perm _).length_eq, Std.ExtTreeMap.length_toList]

theorem EntryOrder.mem_entries {V : Type} {order : EntryOrder V}
    {m : Contents UInt64 V} {entry : UInt64 × V} :
    entry ∈ order.entries m ↔ m[entry.1]? = some entry.2 := by
  rw [EntryOrder.entries, (order.perm _).mem_iff]
  exact Std.ExtTreeMap.mem_toList_iff_getElem?_eq_some

theorem ofEntries_entries (order : EntryOrder Bytes) (m : NodeMap) :
    ofEntries (order.entries m) = m :=
  commit_set_perm (order.perm _)

theorem topology_fieldsOf (order : RecordOrder) (t : ShardTopology) :
    (fieldsOf order t).topology = t := by
  simp only [Fields.topology, fieldsOf, ofEntries_entries]

theorem FitsMap.entries {m : NodeMap} (hfits : FitsMap m)
    (order : EntryOrder Bytes) : FitsEntries (order.entries m) where
  count := order.length_entries m ▸ hfits.count
  addrs entry hentry := hfits.addrs entry.1 entry.2 (EntryOrder.mem_entries.mp hentry)

theorem FitsTopology.fieldsOf {t : ShardTopology} (hfits : FitsTopology t)
    (order : RecordOrder) : (fieldsOf order t).Fits where
  leaderAddr := hfits.leaderAddr
  nodes := hfits.nodes.entries order.nodes
  nonVotings := hfits.nonVotings.entries order.nonVotings
  witnesses := hfits.witnesses.entries order.witnesses
  grpcAddrs := hfits.grpcAddrs.entries order.grpcAddrs

theorem size_commit_sets_le (m : NodeMap) (entries : Entries) :
    (commit m (entries.map fun entry => .set entry.1 entry.2)).size ≤
      m.size + entries.length := by
  induction entries generalizing m with
  | nil => simp
  | cons entry entries ih =>
      have hinsert : (m.insert entry.1 entry.2).size ≤ m.size + 1 :=
        Std.ExtTreeMap.size_insert_le
      have htail := ih (m.insert entry.1 entry.2)
      simp only [List.map_cons, commit_cons, BatchOp.apply, List.length_cons]
      omega

theorem FitsEntries.ofEntries {entries : Entries} (hfits : FitsEntries entries) :
    FitsMap (ofEntries entries) where
  count := by
    have hsize := size_commit_sets_le ∅ entries
    have hcount := hfits.count
    simp only [Std.ExtTreeMap.size_empty] at hsize
    rw [Metadata.ofEntries]
    omega
  addrs id addr haddr := by
    rcases getElem?_commit_eq_some haddr with hbefore | hset
    · simp at hbefore
    · obtain ⟨entry, hentry, heq⟩ := List.mem_map.mp hset
      cases heq
      exact hfits.addrs entry hentry

theorem Fields.Fits.topology {fields : Fields} (hfits : fields.Fits) :
    FitsTopology fields.topology where
  leaderAddr := hfits.leaderAddr
  nodes := hfits.nodes.ofEntries
  nonVotings := hfits.nonVotings.ofEntries
  witnesses := hfits.witnesses.ofEntries
  grpcAddrs := hfits.grpcAddrs.ofEntries

/-! ## Encoders -/

theorem length_encodeEntry (entry : UInt64 × Bytes) :
    (encodeEntry entry).length = 8 + 2 + entry.2.length := by
  simp only [encodeEntry, encodeAddr, List.length_append, length_putUint64,
    length_putUint16]
  omega

theorem writeEntry_at (written : Bytes) (entry : UInt64 × Bytes) (room : ℕ) :
    writeEntry (Cursor.at 0 written ((encodeEntry entry).length + room)) entry =
      .ok (Cursor.at 0 (written ++ encodeEntry entry) room) := by
  have hroom : (encodeEntry entry).length + room =
      (putUint64 entry.1).length +
        ((putUint16 (UInt16.ofNat entry.2.length)).length +
          (entry.2.length + room)) := by
    simp only [encodeEntry, encodeAddr, List.length_append]
    omega
  rw [hroom, writeEntry, put_at_bind, put_at_bind, copy_at]
  simp only [encodeEntry, encodeAddr, List.append_assoc]

theorem marshalNodeMap_at (order : EntryOrder Bytes) (written : Bytes)
    (m : NodeMap) (room : ℕ) :
    marshalNodeMap order
        (Cursor.at 0 written ((encodeEntries (order.entries m)).length + room)) m =
      .ok (Cursor.at 0 (written ++ encodeEntries (order.entries m)) room) := by
  have hroom : (encodeEntries (order.entries m)).length + room =
      (putUint16 (UInt16.ofNat m.size)).length +
        (((order.entries m).flatMap encodeEntry).length + room) := by
    simp only [encodeEntries, List.length_append, length_putUint16]
    omega
  rw [hroom, marshalNodeMap, put_at_bind]
  change (order.entries m).foldlM writeEntry _ = _
  rw [foldlM_at 0 encodeEntry writeEntry writeEntry_at, encodeEntries,
    order.length_entries, List.append_assoc]

theorem nodeMapSize_eq (size : ℕ) (order : EntryOrder Bytes) (m : NodeMap) :
    nodeMapSize size m = size + (encodeEntries (order.entries m)).length := by
  have hloop : ∀ (entries : Entries) (size : ℕ),
      entries.foldl (fun size entry => size + (8 + 2 + entry.2.length)) size =
        size + (entries.flatMap encodeEntry).length := by
    intro entries
    induction entries with
    | nil => simp
    | cons entry entries ih =>
        intro size
        rw [List.foldl_cons, ih, List.flatMap_cons, List.length_append,
          length_encodeEntry]
        omega
  have hperm : ((order.entries m).flatMap encodeEntry).length =
      (m.toList.flatMap encodeEntry).length :=
    ((order.perm m.toList).flatMap_right encodeEntry).length_eq
  rw [nodeMapSize, hloop, encodeEntries, List.length_append, hperm,
    length_putUint16]
  omega

/-- The size of a command does not depend on the order of its maps. -/
theorem updateTopologySize_eq (order : RecordOrder) (t : ShardTopology) :
    updateTopologySize t = (fieldsOf order t).encode.length := by
  simp only [updateTopologySize, List.foldl_cons, List.foldl_nil]
  rw [nodeMapSize_eq _ order.grpcAddrs, nodeMapSize_eq _ order.witnesses,
    nodeMapSize_eq _ order.nonVotings, nodeMapSize_eq _ order.nodes]
  simp only [Fields.encode, fieldsOf, encodeAddr, List.length_append,
    length_putUint64, length_putUint16, List.length_singleton]
  omega

/-- The encoder never leaves its buffer, whatever order its maps are visited
in. -/
theorem marshalUpdateTopologyCmd_eq (order : RecordOrder) (t : ShardTopology) :
    marshalUpdateTopologyCmd order t = .ok (fieldsOf order t).encode := by
  have hroom : updateTopologySize t =
      ([0] : Bytes).length + ((putUint64 t.shardID).length +
        ((putUint64 t.leaderID).length + ((putUint64 t.term).length +
          ((putUint64 t.epoch).length + ((putUint64 t.configChangeID).length +
            ((putUint16 (UInt16.ofNat t.leaderAddr.length)).length +
              (t.leaderAddr.length +
                ((encodeEntries (order.nodes.entries t.nodes)).length +
                  ((encodeEntries (order.nonVotings.entries t.nonVotings)).length +
                    ((encodeEntries (order.witnesses.entries t.witnesses)).length +
                      ((encodeEntries
                        (order.grpcAddrs.entries t.grpcAddrs)).length + 0))))))))))) := by
    rw [updateTopologySize_eq order t]
    simp only [Fields.encode, fieldsOf, encodeAddr, List.length_append]
    omega
  have hstart : (⟨List.replicate (updateTopologySize t) 0, 0⟩ : Cursor UInt8) =
      Cursor.at 0 [] (updateTopologySize t) := rfl
  rw [marshalUpdateTopologyCmd, hstart, hroom]
  simp only [put_at_bind, copy_at_bind, marshalNodeMap_at, ok_bind]
  simp [Cursor.at, Fields.encode, fieldsOf, encodeAddr, pure, Except.pure]

theorem marshalRegisterNodeAddrCmd_eq (nodeID : UInt64) (grpcAddr : Bytes) :
    marshalRegisterNodeAddrCmd nodeID grpcAddr =
      .ok (encodeRegister nodeID grpcAddr) := by
  have hstart :
      (⟨List.replicate (1 + 8 + 2 + grpcAddr.length) 0, 0⟩ : Cursor UInt8) =
        Cursor.at 0 [] (([1] : Bytes).length + ((putUint64 nodeID).length +
          ((putUint16 (UInt16.ofNat grpcAddr.length)).length +
            (grpcAddr.length + 0)))) := by
    simp [Cursor.at]
    omega
  rw [marshalRegisterNodeAddrCmd, hstart]
  simp only [put_at_bind, copy_at_bind]
  simp [Cursor.at, encodeRegister, encodeAddr, pure, Except.pure]

/-! ## Decoders -/

theorem commandType_eq_updateTopology {tag : UInt8} :
    commandType tag = .updateTopology ↔ tag = 0 := by
  unfold commandType
  split
  · simp_all
  · split <;> simp_all

theorem commandType_eq_registerNodeAddr {tag : UInt8} :
    commandType tag = .registerNodeAddr ↔ tag = 1 := by
  unfold commandType
  split
  · simp_all
  · split <;> simp_all

/-- A two-byte length and the string it announces are an encoded address. -/
theorem standsAt_addr_iff {data addr : Bytes} {pos : ℕ} :
    (∃ width, (StandsAt data width pos ∧ width.length = 2) ∧
        (uint16 width).toNat = addr.length ∧ StandsAt data addr (pos + 2)) ↔
      ShortAddr addr ∧ StandsAt data (encodeAddr addr) pos := by
  rw [encodeAddr, standsAt_append, length_putUint16]
  constructor
  · rintro ⟨width, ⟨hwidth, hlength⟩, hcount, haddr⟩
    have hfield : putUint16 (UInt16.ofNat addr.length) = width := by
      rw [← hcount, UInt16.ofNat_toNat, putUint16_uint16 hlength]
    have hshort : ShortAddr addr := by
      rw [ShortAddr, ← hcount]
      exact UInt16.toNat_lt _
    rw [hfield]
    exact ⟨hshort, hwidth, haddr⟩
  · rintro ⟨hshort, hwidth, haddr⟩
    refine ⟨_, ⟨hwidth, by simp⟩, ?_, haddr⟩
    rw [uint16_putUint16]
    exact UInt16.toNat_ofNat_of_lt' hshort

theorem unmarshalEntry_eq_ok_iff {data : Bytes} {entry : UInt64 × Bytes}
    {i pos next : ℕ} :
    unmarshalEntry data i pos = .ok (entry, next) ↔
      ShortAddr entry.2 ∧ StandsAt data (encodeEntry entry) pos ∧
        next = pos + (encodeEntry entry).length := by
  simp only [unmarshalEntry, guard_eq_ok_iff, bind_eq_ok_iff, slice_eq_ok_iff,
    pure_eq_ok_iff, Prod.mk.injEq, length_encodeEntry]
  constructor
  · rintro ⟨-, id, ⟨hid, hidLength⟩, width, ⟨hwidth, hwidthLength⟩, -, addr,
      ⟨haddr, haddrLength⟩, rfl, rfl⟩
    have hid8 : id.length = 8 := by omega
    obtain ⟨hshort, hencoded⟩ := standsAt_addr_iff.mp
      ⟨width, ⟨hwidth, by omega⟩, by omega, haddr⟩
    refine ⟨hshort, ?_, by simp only; omega⟩
    rw [encodeEntry, putUint64_uint64 hid8, standsAt_append, hid8]
    exact ⟨hid, hencoded⟩
  · rintro ⟨hshort, hencoded, rfl⟩
    have hbound := hencoded.bound
    rw [length_encodeEntry] at hbound
    rw [encodeEntry, standsAt_append, length_putUint64] at hencoded
    obtain ⟨width, ⟨hwidth, hlength⟩, hcount, haddr⟩ :=
      standsAt_addr_iff.mpr ⟨hshort, hencoded.2⟩
    refine ⟨by omega, putUint64 entry.1, ⟨hencoded.1, by simp⟩, width,
      ⟨hwidth, by omega⟩, by omega, entry.2, ⟨haddr, by omega⟩, ?_, by omega⟩
    rw [uint64_putUint64]

theorem unmarshalEntries_eq_ok_iff {data : Bytes} {m result : NodeMap}
    {remaining i pos next : ℕ} (hpos : pos ≤ data.length) :
    unmarshalEntries data remaining i pos m = .ok (result, next) ↔
      ∃ entries : Entries, entries.length = remaining ∧
        (∀ entry ∈ entries, ShortAddr entry.2) ∧
        StandsAt data (entries.flatMap encodeEntry) pos ∧
        next = pos + (entries.flatMap encodeEntry).length ∧
        result = commit m (entries.map fun entry => .set entry.1 entry.2) := by
  induction remaining generalizing i pos m with
  | zero =>
      simp only [unmarshalEntries, pure_eq_ok_iff, Prod.mk.injEq]
      constructor
      · rintro ⟨rfl, rfl⟩
        exact ⟨[], rfl, by simp, ⟨data.take pos, data.drop pos, by simp, by simpa⟩,
          by simp, rfl⟩
      · rintro ⟨entries, hlength, -, -, rfl, rfl⟩
        have hnil := List.eq_nil_of_length_eq_zero hlength
        subst hnil
        exact ⟨rfl, by simp⟩
  | succ remaining ih =>
      simp only [unmarshalEntries, bind_eq_ok_iff, Prod.exists,
        unmarshalEntry_eq_ok_iff]
      constructor
      · rintro ⟨id, addr, middle, ⟨hshort, hentry, rfl⟩, htail⟩
        obtain ⟨entries, hlength, hall, hstands, rfl, rfl⟩ :=
          (ih hentry.bound).mp htail
        refine ⟨(id, addr) :: entries, by simp [hlength],
          List.forall_mem_cons.mpr ⟨hshort, hall⟩, ?_, ?_, rfl⟩
        · rw [List.flatMap_cons, standsAt_append]
          exact ⟨hentry, hstands⟩
        · rw [List.flatMap_cons, List.length_append, Nat.add_assoc]
      · rintro ⟨entries, hlength, hall, hstands, rfl, rfl⟩
        obtain ⟨⟨id, addr⟩, tail, rfl⟩ :=
          List.exists_cons_of_length_eq_add_one hlength
        rw [List.flatMap_cons, standsAt_append] at hstands
        obtain ⟨hshort, htailShort⟩ := List.forall_mem_cons.mp hall
        refine ⟨id, addr, _, ⟨hshort, hstands.1, rfl⟩,
          (ih hstands.1.bound).mpr ⟨tail, by simpa using hlength, htailShort,
            hstands.2, ?_, rfl⟩⟩
        rw [List.flatMap_cons, List.length_append, Nat.add_assoc]

theorem unmarshalNodeMap_eq_ok_iff {data : Bytes} {m : NodeMap} {pos next : ℕ} :
    unmarshalNodeMap data pos = .ok (m, next) ↔
      ∃ entries, FitsEntries entries ∧ StandsAt data (encodeEntries entries) pos ∧
        next = pos + (encodeEntries entries).length ∧ m = ofEntries entries := by
  simp only [unmarshalNodeMap, guard_eq_ok_iff, bind_eq_ok_iff, slice_eq_ok_iff]
  constructor
  · rintro ⟨-, count, ⟨hcount, hwidth⟩, hentries⟩
    have hcount2 : count.length = 2 := by omega
    have hbound := hcount.bound
    obtain ⟨entries, hlength, hshort, hstands, rfl, rfl⟩ :=
      (unmarshalEntries_eq_ok_iff (by omega)).mp hentries
    have hfield : putUint16 (UInt16.ofNat entries.length) = count := by
      rw [hlength, UInt16.ofNat_toNat, putUint16_uint16 hcount2]
    refine ⟨entries, ⟨hlength ▸ UInt16.toNat_lt _, hshort⟩, ?_, ?_, rfl⟩
    · rw [encodeEntries, standsAt_append, hfield, hcount2]
      exact ⟨hcount, hstands⟩
    · rw [encodeEntries, List.length_append, length_putUint16, Nat.add_assoc]
  · rintro ⟨entries, hfits, hstands, rfl, rfl⟩
    have hbound := hstands.bound
    rw [encodeEntries, List.length_append, length_putUint16] at hbound
    rw [encodeEntries, standsAt_append, length_putUint16] at hstands
    refine ⟨by omega, _, ⟨hstands.1, by simp⟩, ?_⟩
    rw [unmarshalEntries_eq_ok_iff (by omega), uint16_putUint16]
    refine ⟨entries, (UInt16.toNat_ofNat_of_lt' hfits.count).symm, hfits.addrs,
      hstands.2, ?_, rfl⟩
    rw [encodeEntries, List.length_append, length_putUint16, Nat.add_assoc]

theorem unmarshalField_eq_ok_iff {field : MapField} {data : Bytes} {m : NodeMap}
    {pos next : ℕ} :
    unmarshalField field data pos = .ok (m, next) ↔
      ∃ entries, FitsEntries entries ∧ StandsAt data (encodeEntries entries) pos ∧
        next = pos + (encodeEntries entries).length ∧ m = ofEntries entries := by
  rw [unmarshalField, mapError_eq_ok_iff, unmarshalNodeMap_eq_ok_iff]

/-- The decoder of shard records accepts exactly the encodings of fitting
fields, followed by anything. -/
theorem unmarshalUpdateTopologyCmd_eq_ok_iff {data : Bytes} {t : ShardTopology} :
    unmarshalUpdateTopologyCmd data = .ok t ↔
      ∃ fields : Fields, fields.Fits ∧ t = fields.topology ∧
        ∃ rest, data = fields.encode ++ rest := by
  simp only [unmarshalUpdateTopologyCmd, guard_eq_ok_iff, bind_eq_ok_iff,
    slice_eq_ok_iff, pure_eq_ok_iff, ne_eq, not_not,
    commandType_eq_updateTopology, Prod.exists, unmarshalField_eq_ok_iff,
    ← standsAt_zero_iff]
  constructor
  · rintro ⟨hlength, htag, shard, ⟨hshard, hshardLength⟩, leader,
      ⟨hleader, hleaderLength⟩, term, ⟨hterm, htermLength⟩, epoch,
      ⟨hepoch, hepochLength⟩, config, ⟨hconfig, hconfigLength⟩, width,
      ⟨hwidth, hwidthLength⟩, -, addr, ⟨haddr, haddrLength⟩, _, _,
      ⟨nodes, hnodesFit, hnodes, rfl, rfl⟩, _, _,
      ⟨nonVotings, hnonVotingsFit, hnonVotings, rfl, rfl⟩, _, _,
      ⟨witnesses, hwitnessesFit, hwitnesses, rfl, rfl⟩, _, _,
      ⟨grpcAddrs, hgrpcAddrsFit, hgrpcAddrs, -, rfl⟩, rfl⟩
    have hshard8 : shard.length = 8 := by omega
    have hleader8 : leader.length = 8 := by omega
    have hterm8 : term.length = 8 := by omega
    have hepoch8 : epoch.length = 8 := by omega
    have hconfig8 : config.length = 8 := by omega
    have htagField := standsAt_tag 0 (show 1 ≤ data.length by omega)
    rw [htag] at htagField
    have hcount : (uint16 width).toNat = addr.length := by omega
    obtain ⟨hshort, hencoded⟩ := standsAt_addr_iff.mp
      ⟨width, ⟨hwidth, by omega⟩, hcount, haddr⟩
    have haddrEnd : 41 + (encodeAddr addr).length = 43 + (uint16 width).toNat := by
      simp only [encodeAddr, List.length_append, length_putUint16]
      omega
    refine ⟨⟨uint64 shard, uint64 leader, uint64 term, uint64 epoch,
      uint64 config, addr, nodes, nonVotings, witnesses, grpcAddrs⟩,
      ⟨hshort, hnodesFit, hnonVotingsFit, hwitnessesFit, hgrpcAddrsFit⟩, rfl, ?_⟩
    simp only [Fields.encode, standsAt_append, putUint64_uint64 hshard8,
      putUint64_uint64 hleader8, putUint64_uint64 hterm8, putUint64_uint64 hepoch8,
      putUint64_uint64 hconfig8, List.length_append, List.length_singleton, hshard8,
      hleader8, hterm8, hepoch8, hconfig8, Nat.reduceAdd, Nat.zero_add, haddrEnd,
      ← Nat.add_assoc]
    exact ⟨⟨⟨⟨⟨⟨⟨⟨⟨⟨htagField, hshard⟩, hleader⟩, hterm⟩, hepoch⟩, hconfig⟩,
      hencoded⟩, hnodes⟩, hnonVotings⟩, hwitnesses⟩, hgrpcAddrs⟩
  · rintro ⟨fields, hfits, rfl, hstands⟩
    have hbound := hstands.bound
    have haddrLength : (encodeAddr fields.leaderAddr).length =
        2 + fields.leaderAddr.length := by
      simp only [encodeAddr, List.length_append, length_putUint16]
    simp only [Fields.encode, List.length_append, length_putUint64,
      List.length_singleton, haddrLength] at hbound
    simp only [Fields.encode, standsAt_append, List.length_append,
      length_putUint64, List.length_singleton, Nat.reduceAdd, Nat.zero_add,
      haddrLength, ← Nat.add_assoc] at hstands
    obtain ⟨⟨⟨⟨⟨⟨⟨⟨⟨⟨htag, hshard⟩, hleader⟩, hterm⟩, hepoch⟩, hconfig⟩, hencoded⟩,
      hnodes⟩, hnonVotings⟩, hwitnesses⟩, hgrpcAddrs⟩ := hstands
    obtain ⟨width, ⟨hwidth, hwidthLength⟩, hcount, haddr⟩ :=
      standsAt_addr_iff.mpr ⟨hfits.leaderAddr, hencoded⟩
    refine ⟨by omega, headD_of_standsAt htag 0, _, ⟨hshard, by simp⟩, _,
      ⟨hleader, by simp⟩, _, ⟨hterm, by simp⟩, _, ⟨hepoch, by simp⟩, _,
      ⟨hconfig, by simp⟩, width, ⟨hwidth, by omega⟩, by omega, fields.leaderAddr,
      ⟨haddr, by omega⟩, _, _, ⟨fields.nodes, hfits.nodes, hcount ▸ hnodes, rfl, rfl⟩,
      _, _, ⟨fields.nonVotings, hfits.nonVotings, hcount ▸ hnonVotings, rfl, rfl⟩,
      _, _, ⟨fields.witnesses, hfits.witnesses, hcount ▸ hwitnesses, rfl, rfl⟩,
      _, _, ⟨fields.grpcAddrs, hfits.grpcAddrs, hcount ▸ hgrpcAddrs, rfl, rfl⟩, ?_⟩
    simp only [Fields.topology, uint64_putUint64]

theorem unmarshalRegisterNodeAddrCmd_eq_ok_iff {data addr : Bytes} {id : UInt64} :
    unmarshalRegisterNodeAddrCmd data = .ok (id, addr) ↔
      ShortAddr addr ∧ ∃ rest, data = encodeRegister id addr ++ rest := by
  simp only [unmarshalRegisterNodeAddrCmd, guard_eq_ok_iff, bind_eq_ok_iff,
    slice_eq_ok_iff, pure_eq_ok_iff, ne_eq, not_not,
    commandType_eq_registerNodeAddr, Prod.mk.injEq, ← standsAt_zero_iff]
  constructor
  · rintro ⟨hlength, htag, node, ⟨hnode, hnodeLength⟩, width,
      ⟨hwidth, hwidthLength⟩, -, field, ⟨hfield, hfieldLength⟩, rfl, rfl⟩
    have hnode8 : node.length = 8 := by omega
    have htagField := standsAt_tag 0 (show 1 ≤ data.length by omega)
    rw [htag] at htagField
    obtain ⟨hshort, hencoded⟩ := standsAt_addr_iff.mp
      ⟨width, ⟨hwidth, by omega⟩, by omega, hfield⟩
    refine ⟨hshort, ?_⟩
    simp only [encodeRegister, standsAt_append, putUint64_uint64 hnode8,
      List.length_append, List.length_singleton, hnode8, Nat.zero_add, Nat.reduceAdd]
    exact ⟨⟨htagField, hnode⟩, hencoded⟩
  · rintro ⟨hshort, hstands⟩
    have hbound := hstands.bound
    simp only [encodeRegister, encodeAddr, List.length_append, length_putUint64,
      length_putUint16, List.length_singleton] at hbound
    simp only [encodeRegister, standsAt_append, List.length_append,
      length_putUint64, List.length_singleton, Nat.zero_add, Nat.reduceAdd] at hstands
    obtain ⟨⟨htag, hnode⟩, hencoded⟩ := hstands
    obtain ⟨width, ⟨hwidth, hwidthLength⟩, hcount, haddr⟩ :=
      standsAt_addr_iff.mpr ⟨hshort, hencoded⟩
    exact ⟨by omega, headD_of_standsAt htag 0, _, ⟨hnode, by simp⟩, width,
      ⟨hwidth, by omega⟩, by omega, addr, ⟨haddr, by omega⟩, by simp, rfl⟩

/-! ## The decoders check their bounds -/

theorem returns_unmarshalEntry (data : Bytes) (i pos : ℕ) :
    Returns (unmarshalEntry data i pos) := by
  refine returns_guard fun hheader => ?_
  refine (returns_slice (by omega) (by omega)).bind fun id => ?_
  refine (returns_slice (by omega) (by omega)).bind fun width => ?_
  refine returns_guard fun haddr => ?_
  exact (returns_slice (by omega) (by omega)).bind fun addr => returns_ok _

theorem returns_unmarshalEntries (data : Bytes) (remaining i pos : ℕ)
    (m : NodeMap) : Returns (unmarshalEntries data remaining i pos m) := by
  induction remaining generalizing i pos m with
  | zero => exact returns_ok _
  | succ remaining ih =>
      exact (returns_unmarshalEntry data i pos).bind fun _ => ih _ _ _

theorem returns_unmarshalField (field : MapField) (data : Bytes) (pos : ℕ) :
    Returns (unmarshalField field data pos) := by
  have hmap : Returns (unmarshalNodeMap data pos) := by
    refine returns_guard fun hcount => ?_
    exact (returns_slice (by omega) (by omega)).bind
      fun count => returns_unmarshalEntries data _ _ _ _
  intro reason hpanic
  rw [unmarshalField] at hpanic
  cases hcall : unmarshalNodeMap data pos with
  | ok value =>
      rw [hcall] at hpanic
      cases hpanic
  | error fault =>
      rw [hcall] at hpanic
      cases fault with
      | error err => cases hpanic
      | panic other => exact hmap other hcall

theorem returns_unmarshalUpdateTopologyCmd (data : Bytes) :
    Returns (unmarshalUpdateTopologyCmd data) := by
  refine returns_guard fun hlength => returns_guard fun _ => ?_
  refine (returns_slice (by omega) (by omega)).bind fun shardID => ?_
  refine (returns_slice (by omega) (by omega)).bind fun leaderID => ?_
  refine (returns_slice (by omega) (by omega)).bind fun term => ?_
  refine (returns_slice (by omega) (by omega)).bind fun epoch => ?_
  refine (returns_slice (by omega) (by omega)).bind fun configChangeID => ?_
  refine (returns_slice (by omega) (by omega)).bind fun width => ?_
  refine returns_guard fun haddr => ?_
  refine (returns_slice (by omega) (by omega)).bind fun leaderAddr => ?_
  refine (returns_unmarshalField _ _ _).bind fun nodes => ?_
  refine (returns_unmarshalField _ _ _).bind fun nonVotings => ?_
  refine (returns_unmarshalField _ _ _).bind fun witnesses => ?_
  exact (returns_unmarshalField _ _ _).bind fun grpcAddrs => returns_ok _

theorem returns_unmarshalRegisterNodeAddrCmd (data : Bytes) :
    Returns (unmarshalRegisterNodeAddrCmd data) := by
  refine returns_guard fun hlength => returns_guard fun _ => ?_
  refine (returns_slice (by omega) (by omega)).bind fun nodeID => ?_
  refine (returns_slice (by omega) (by omega)).bind fun width => ?_
  refine returns_guard fun haddr => ?_
  exact (returns_slice (by omega) (by omega)).bind fun grpcAddr => returns_ok _

/-! ## Commands that were cut short -/

theorem ofNat_inj {left right : ℕ} (hleft : left < 2 ^ 16) (hright : right < 2 ^ 16)
    (heq : putUint16 (UInt16.ofNat left) = putUint16 (UInt16.ofNat right)) :
    left = right := by
  have hword := congrArg (fun bytes => (uint16 bytes).toNat) heq
  simpa only [uint16_putUint16, UInt16.toNat_ofNat_of_lt' hleft,
    UInt16.toNat_ofNat_of_lt' hright] using hword

theorem selfDelimiting_addr : SelfDelimiting ShortAddr encodeAddr := by
  intro left right leftRest rightRest hleft hright heq
  simp only [encodeAddr, List.append_assoc] at heq
  obtain ⟨hwidth, hrest⟩ := List.append_inj heq (by simp)
  exact List.append_inj hrest (ofNat_inj hleft hright hwidth)

theorem selfDelimiting_entry :
    SelfDelimiting (fun entry => ShortAddr entry.2) encodeEntry := by
  rintro ⟨leftID, left⟩ ⟨rightID, right⟩ leftRest rightRest hleft hright heq
  simp only [encodeEntry, List.append_assoc] at heq
  obtain ⟨hid, haddr⟩ := List.append_inj heq (by simp)
  obtain ⟨rfl, hrest⟩ := selfDelimiting_addr left right _ _ hleft hright haddr
  exact ⟨by rw [putUint64_injective hid], hrest⟩

theorem selfDelimiting_entries : SelfDelimiting FitsEntries encodeEntries := by
  intro left right leftRest rightRest hleft hright heq
  simp only [encodeEntries, List.append_assoc] at heq
  obtain ⟨hwidth, hrest⟩ := List.append_inj heq (by simp)
  exact selfDelimiting_entry.flatMap (ofNat_inj hleft.count hright.count hwidth)
    hleft.addrs hright.addrs hrest

theorem selfDelimiting_fields : SelfDelimiting Fields.Fits Fields.encode := by
  intro left right leftRest rightRest hleft hright heq
  simp only [Fields.encode, List.append_assoc] at heq
  obtain ⟨-, heq⟩ := List.append_inj heq rfl
  obtain ⟨hshard, heq⟩ := List.append_inj heq (by simp)
  obtain ⟨hleader, heq⟩ := List.append_inj heq (by simp)
  obtain ⟨hterm, heq⟩ := List.append_inj heq (by simp)
  obtain ⟨hepoch, heq⟩ := List.append_inj heq (by simp)
  obtain ⟨hconfig, heq⟩ := List.append_inj heq (by simp)
  obtain ⟨haddr, heq⟩ :=
    selfDelimiting_addr _ _ _ _ hleft.leaderAddr hright.leaderAddr heq
  obtain ⟨hnodes, heq⟩ :=
    selfDelimiting_entries _ _ _ _ hleft.nodes hright.nodes heq
  obtain ⟨hnonVotings, heq⟩ :=
    selfDelimiting_entries _ _ _ _ hleft.nonVotings hright.nonVotings heq
  obtain ⟨hwitnesses, heq⟩ :=
    selfDelimiting_entries _ _ _ _ hleft.witnesses hright.witnesses heq
  obtain ⟨hgrpcAddrs, hrest⟩ :=
    selfDelimiting_entries _ _ _ _ hleft.grpcAddrs hright.grpcAddrs heq
  cases left
  cases right
  simp only [Fields.mk.injEq]
  exact ⟨⟨putUint64_injective hshard, putUint64_injective hleader,
    putUint64_injective hterm, putUint64_injective hepoch,
    putUint64_injective hconfig, haddr, hnodes, hnonVotings, hwitnesses,
    hgrpcAddrs⟩, hrest⟩

theorem selfDelimiting_register :
    SelfDelimiting (fun entry : UInt64 × Bytes => ShortAddr entry.2)
      fun entry => encodeRegister entry.1 entry.2 := by
  intro left right leftRest rightRest hleft hright heq
  simp only [encodeRegister, List.append_assoc] at heq
  apply selfDelimiting_entry left right _ _ hleft hright
  rw [encodeEntry, encodeEntry, List.append_assoc, List.append_assoc]
  exact List.append_cancel_left heq

/-- A proper front of a command is refused. -/
theorem unmarshalUpdateTopologyCmd_take {fields : Fields} (hfits : fields.Fits)
    {count : ℕ} (hcount : count < fields.encode.length) (t : ShardTopology) :
    unmarshalUpdateTopologyCmd (fields.encode.take count) ≠ .ok t := by
  intro hok
  obtain ⟨other, hother, -, rest, hdata⟩ :=
    unmarshalUpdateTopologyCmd_eq_ok_iff.mp hok
  exact selfDelimiting_fields.take_ne fields other hfits hother hcount rest hdata

theorem unmarshalRegisterNodeAddrCmd_take {nodeID : UInt64} {grpcAddr : Bytes}
    (hfits : ShortAddr grpcAddr) {count : ℕ}
    (hcount : count < (encodeRegister nodeID grpcAddr).length)
    (registration : UInt64 × Bytes) :
    unmarshalRegisterNodeAddrCmd ((encodeRegister nodeID grpcAddr).take count) ≠
      .ok registration := by
  intro hok
  obtain ⟨hother, rest, hdata⟩ := unmarshalRegisterNodeAddrCmd_eq_ok_iff.mp hok
  exact selfDelimiting_register.take_ne (nodeID, grpcAddr) registration hfits hother
    hcount rest hdata

/-- A shard record is read back, with anything behind it, exactly when its lengths
fit. -/
theorem unmarshalUpdateTopologyCmd_encode_iff (order : RecordOrder)
    (t : ShardTopology) (rest : Bytes) :
    unmarshalUpdateTopologyCmd ((fieldsOf order t).encode ++ rest) = .ok t ↔
      FitsTopology t := by
  rw [unmarshalUpdateTopologyCmd_eq_ok_iff]
  constructor
  · rintro ⟨fields, hfits, rfl, -⟩
    exact hfits.topology
  · intro hfits
    exact ⟨fieldsOf order t, hfits.fieldsOf order, (topology_fieldsOf order t).symm,
      rest, rfl⟩

theorem unmarshalRegisterNodeAddrCmd_encode_iff (nodeID : UInt64) (grpcAddr : Bytes)
    (rest : Bytes) :
    unmarshalRegisterNodeAddrCmd (encodeRegister nodeID grpcAddr ++ rest) =
        .ok (nodeID, grpcAddr) ↔ ShortAddr grpcAddr := by
  rw [unmarshalRegisterNodeAddrCmd_eq_ok_iff]
  exact ⟨And.left, fun hfits => ⟨hfits, rest, rfl⟩⟩

/-- For every order of the maps, the encoders return, what they write is read back
exactly when its lengths fit, and nothing shorter is read at all; the decoders
return on every input. -/
theorem metadata_codecs_round_trip :
    (∀ (order : RecordOrder) (t : ShardTopology),
      ∃ encoded, marshalUpdateTopologyCmd order t = .ok encoded ∧
        (∀ rest, unmarshalUpdateTopologyCmd (encoded ++ rest) = .ok t ↔
          FitsTopology t) ∧
        (FitsTopology t → ∀ count < encoded.length,
          ∃ err, unmarshalUpdateTopologyCmd (encoded.take count) =
            .error (.error err))) ∧
    (∀ (nodeID : UInt64) (grpcAddr : Bytes),
      ∃ encoded, marshalRegisterNodeAddrCmd nodeID grpcAddr = .ok encoded ∧
        (∀ rest, unmarshalRegisterNodeAddrCmd (encoded ++ rest) =
          .ok (nodeID, grpcAddr) ↔ ShortAddr grpcAddr) ∧
        (ShortAddr grpcAddr → ∀ count < encoded.length,
          ∃ err, unmarshalRegisterNodeAddrCmd (encoded.take count) =
            .error (.error err))) ∧
    ∀ data, Returns (unmarshalUpdateTopologyCmd data) ∧
      Returns (unmarshalRegisterNodeAddrCmd data) := by
  refine ⟨?_, ?_, ?_⟩
  · intro order t
    refine ⟨_, marshalUpdateTopologyCmd_eq order t,
      unmarshalUpdateTopologyCmd_encode_iff order t, ?_⟩
    intro hfits count hcount
    exact exists_error (returns_unmarshalUpdateTopologyCmd _)
      (unmarshalUpdateTopologyCmd_take (hfits.fieldsOf order) hcount)
  · intro nodeID grpcAddr
    refine ⟨_, marshalRegisterNodeAddrCmd_eq nodeID grpcAddr,
      unmarshalRegisterNodeAddrCmd_encode_iff nodeID grpcAddr, ?_⟩
    intro hfits count hcount
    exact exists_error (returns_unmarshalRegisterNodeAddrCmd _)
      (unmarshalRegisterNodeAddrCmd_take hfits hcount)
  · intro data
    exact ⟨returns_unmarshalUpdateTopologyCmd data,
      returns_unmarshalRegisterNodeAddrCmd data⟩

end FutureQ.Metadata
