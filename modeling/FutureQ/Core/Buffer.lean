import FutureQ.Core.GoRuntime

/-!
# Buffers with checked bounds

Hand-written codecs allocate a buffer of a pre-computed size and fill it field
by field, and read fields back as sub-slices at a running position.  Both kinds
of access are checked: an access out of range is a panic.  A `Cursor` is such a
buffer with its position; `Cursor.at` is the cursor after a prefix has been
written, and writing a field turns one such cursor into the next, so a
sequence of writes that fills the buffer is the concatenation of its fields.
-/

namespace FutureQ.Buffer

open FutureQ.GoRuntime

variable {α ε : Type}

structure Cursor (α : Type) where
  out : List α
  pos : ℕ

/-- Overwrite `out[pos : pos + len(field)]` and move past it. -/
def Cursor.put (cursor : Cursor α) (field : List α) :
    GoResult ε (Cursor α) :=
  if cursor.pos + field.length ≤ cursor.out.length then
    .ok ⟨cursor.out.take cursor.pos ++ field ++
      cursor.out.drop (cursor.pos + field.length), cursor.pos + field.length⟩
  else .error (.panic .sliceBoundsOutOfRange)

/-- `copy(out[pos:], field)` writes what fits; the position still moves past the
whole field. -/
def Cursor.copy (cursor : Cursor α) (field : List α) :
    GoResult ε (Cursor α) :=
  if cursor.pos ≤ cursor.out.length then
    .ok ⟨cursor.out.take cursor.pos ++
      field.take (cursor.out.length - cursor.pos) ++
      cursor.out.drop (cursor.pos + field.length), cursor.pos + field.length⟩
  else .error (.panic .sliceBoundsOutOfRange)

/-- The cursor of a buffer whose written part is `written` and that has room for
`room` more elements. -/
def Cursor.at (blank : α) (written : List α) (room : ℕ) : Cursor α :=
  ⟨written ++ List.replicate room blank, written.length⟩

/-- `data[low:high]`. -/
def slice (data : List α) (low high : ℕ) : GoResult ε (List α) :=
  if low ≤ high ∧ high ≤ data.length then
    .ok ((data.drop low).take (high - low))
  else .error (.panic .sliceBoundsOutOfRange)

theorem put_at (blank : α) (written field : List α) (room : ℕ) :
    (Cursor.at blank written (field.length + room)).put (ε := ε) field =
      .ok (Cursor.at blank (written ++ field) room) := by
  rw [Cursor.put, if_pos (by simp [Cursor.at])]
  simp [Cursor.at]

theorem copy_at (blank : α) (written field : List α) (room : ℕ) :
    (Cursor.at blank written (field.length + room)).copy (ε := ε) field =
      .ok (Cursor.at blank (written ++ field) room) := by
  rw [Cursor.copy, if_pos (by simp [Cursor.at])]
  simp [Cursor.at]

theorem put_at_bind {β : Type} (blank : α) (written field : List α) (room : ℕ)
    (next : Cursor α → GoResult ε β) :
    ((Cursor.at blank written (field.length + room)).put field >>= next) =
      next (Cursor.at blank (written ++ field) room) := by
  rw [put_at, ok_bind]

theorem copy_at_bind {β : Type} (blank : α) (written field : List α) (room : ℕ)
    (next : Cursor α → GoResult ε β) :
    ((Cursor.at blank written (field.length + room)).copy field >>= next) =
      next (Cursor.at blank (written ++ field) room) := by
  rw [copy_at, ok_bind]

/-- A loop that writes one encoded element after the other concatenates the
encodings. -/
theorem foldlM_at {β : Type} (blank : α) (encode : β → List α)
    (write : Cursor α → β → GoResult ε (Cursor α))
    (hwrite : ∀ written value room,
      write (Cursor.at blank written ((encode value).length + room)) value =
        .ok (Cursor.at blank (written ++ encode value) room))
    (values : List β) (written : List α) (room : ℕ) :
    values.foldlM write
        (Cursor.at blank written ((values.flatMap encode).length + room)) =
      .ok (Cursor.at blank (written ++ values.flatMap encode) room) := by
  induction values generalizing written with
  | nil => simp [pure, Except.pure]
  | cons value values ih =>
      have hlength : ((value :: values).flatMap encode).length + room =
          (encode value).length + ((values.flatMap encode).length + room) := by
        simp [Nat.add_assoc]
      rw [hlength, List.foldlM_cons, hwrite]
      change values.foldlM write _ = _
      rw [ih]
      simp

/-- `field` stands at position `pos` of `data`. -/
def StandsAt (data field : List α) (pos : ℕ) : Prop :=
  ∃ before after, data = before ++ field ++ after ∧ before.length = pos

theorem StandsAt.bound {data field : List α} {pos : ℕ}
    (hfield : StandsAt data field pos) : pos + field.length ≤ data.length := by
  obtain ⟨before, after, rfl, rfl⟩ := hfield
  simp

/-- Two fields stand one after the other exactly when their concatenation
stands where the first one does. -/
theorem standsAt_append {data first second : List α} {pos : ℕ} :
    StandsAt data (first ++ second) pos ↔
      StandsAt data first pos ∧ StandsAt data second (pos + first.length) := by
  constructor
  · rintro ⟨before, after, rfl, rfl⟩
    exact ⟨⟨before, second ++ after, by simp, rfl⟩,
      ⟨before ++ first, after, by simp, by simp⟩⟩
  · rintro ⟨⟨before, after, hfirst, rfl⟩, ⟨longer, rest, hsecond, hlength⟩⟩
    have hboth : before ++ first ++ after = longer ++ (second ++ rest) := by
      rw [← hfirst, hsecond, List.append_assoc]
    obtain ⟨hbefore, hafter⟩ := List.append_inj hboth (by simp [hlength])
    exact ⟨before, rest, by rw [hfirst, hafter]; simp, rfl⟩

theorem standsAt_zero_iff {data field : List α} :
    StandsAt data field 0 ↔ ∃ rest, data = field ++ rest := by
  constructor
  · rintro ⟨before, after, rfl, hbefore⟩
    have hnil := List.eq_nil_of_length_eq_zero hbefore
    subst hnil
    exact ⟨after, by simp⟩
  · rintro ⟨rest, rfl⟩
    exact ⟨[], rest, by simp, rfl⟩

/-- The tag stands at the front of a non-empty command. -/
theorem standsAt_tag {data : List α} (blank : α) (hdata : 1 ≤ data.length) :
    StandsAt data [data.headD blank] 0 := by
  cases data with
  | nil => simp at hdata
  | cons tag rest => exact ⟨[], rest, by simp, rfl⟩

theorem headD_of_standsAt {data : List α} {tag : α}
    (htag : StandsAt data [tag] 0) (blank : α) : data.headD blank = tag := by
  obtain ⟨rest, rfl⟩ := standsAt_zero_iff.mp htag
  rfl

/-- Reading a sub-slice succeeds exactly on the field that stands there. -/
theorem slice_eq_ok_iff {data field : List α} {low high : ℕ} :
    slice (ε := ε) data low high = .ok field ↔
      StandsAt data field low ∧ low + field.length = high := by
  unfold slice
  constructor
  · intro h
    split at h
    · rename_i hrange
      cases h
      have hsplit := List.take_append_drop (high - low) (data.drop low)
      rw [List.drop_drop, Nat.add_sub_cancel' hrange.1] at hsplit
      refine ⟨⟨data.take low, data.drop high, ?_, by simp; omega⟩, by simp; omega⟩
      rw [List.append_assoc, hsplit, List.take_append_drop]
    · cases h
  · rintro ⟨⟨before, after, rfl, rfl⟩, rfl⟩
    rw [if_pos (by simp)]
    simp

/-- A read whose bounds were checked does not panic. -/
theorem returns_slice {data : List α} {low high : ℕ} (hlow : low ≤ high)
    (hhigh : high ≤ data.length) : Returns (slice (ε := ε) data low high) := by
  rw [slice, if_pos ⟨hlow, hhigh⟩]
  exact returns_ok _

/-! ## Encodings that end by themselves -/

/-- The encoding of an admissible value can be cut off from whatever follows
it. -/
def SelfDelimiting {β : Type} (admissible : β → Prop) (encode : β → List α) :
    Prop :=
  ∀ left right leftRest rightRest, admissible left → admissible right →
    encode left ++ leftRest = encode right ++ rightRest →
      left = right ∧ leftRest = rightRest

/-- A known number of self-delimiting encodings is self-delimiting. -/
theorem SelfDelimiting.flatMap {β : Type} {admissible : β → Prop}
    {encode : β → List α} (hencode : SelfDelimiting admissible encode)
    {lefts rights : List β} (hlength : lefts.length = rights.length)
    (hlefts : ∀ value ∈ lefts, admissible value)
    (hrights : ∀ value ∈ rights, admissible value) {leftRest rightRest : List α}
    (heq : lefts.flatMap encode ++ leftRest = rights.flatMap encode ++ rightRest) :
    lefts = rights ∧ leftRest = rightRest := by
  induction lefts generalizing rights with
  | nil =>
      have hnil : rights = [] := List.length_eq_zero_iff.mp hlength.symm
      subst hnil
      exact ⟨rfl, by simpa using heq⟩
  | cons left lefts ih =>
      obtain ⟨right, rights, rfl⟩ := List.exists_cons_of_length_eq_add_one hlength.symm
      obtain ⟨hleft, hleftTail⟩ := List.forall_mem_cons.mp hlefts
      obtain ⟨hright, hrightTail⟩ := List.forall_mem_cons.mp hrights
      simp only [List.flatMap_cons, List.append_assoc] at heq
      obtain ⟨rfl, htail⟩ := hencode left right _ _ hleft hright heq
      obtain ⟨rfl, hrest⟩ := ih (by simpa using hlength) hleftTail hrightTail htail
      exact ⟨rfl, hrest⟩

/-- A proper front of an encoding does not begin with an encoding. -/
theorem SelfDelimiting.take_ne {β : Type} {admissible : β → Prop}
    {encode : β → List α} (hencode : SelfDelimiting admissible encode)
    (value other : β) (hvalue : admissible value) (hother : admissible other)
    {count : ℕ} (hcount : count < (encode value).length) (rest : List α) :
    (encode value).take count ≠ encode other ++ rest := by
  intro hfront
  have hwhole : encode other ++ (rest ++ (encode value).drop count) =
      encode value ++ [] := by
    rw [← List.append_assoc, ← hfront, List.take_append_drop, List.append_nil]
  obtain ⟨-, hrest⟩ := hencode other value _ _ hother hvalue hwhole
  have hlength := congrArg List.length hrest
  simp only [List.length_append, List.length_drop, List.length_nil] at hlength
  omega

end FutureQ.Buffer
