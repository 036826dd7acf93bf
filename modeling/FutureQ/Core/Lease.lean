import Mathlib

/-!
# Leases

A table says since when a key is held.  A key is held back while its lease runs,
and an entry whose time has run out may be dropped when the clock is read.  What
happened to the keys, newest event first, decides which of them are held back,
whatever entries were dropped on the way.
-/

namespace FutureQ.Lease

variable {K : Type*} [DecidableEq K]

inductive Event (K : Type*) where
  | taken (key : K) (time : ℕ)
  | released (key : K)
  deriving DecidableEq

abbrev Table (K : Type*) := K → Option ℕ

/-- When the key was taken, if that is the last event about it. -/
def heldSince (key : K) : List (Event K) → Option ℕ
  | [] => none
  | .taken other time :: earlier =>
      if other = key then some time else heldSince key earlier
  | .released other :: earlier =>
      if other = key then none else heldSince key earlier

/-- The key was never taken, or it was last taken long enough ago, or released
since. -/
def Free (timeout : ℤ) (history : List (Event K)) (key : K) (now : ℕ) : Prop :=
  (∀ time, .taken key time ∉ history) ∨
    ∃ (later : List (Event K)) (time : ℕ) (earlier : List (Event K)),
      history = later ++ .taken key time :: earlier ∧
      (∀ other, .taken key other ∉ later) ∧
      (timeout ≤ (now : ℤ) - time ∨ .released key ∈ later)

/-! ## What the history says about a key -/

theorem heldSince_of_never {key : K} {history : List (Event K)}
    (hnever : ∀ time, .taken key time ∉ history) : heldSince key history = none := by
  induction history with
  | nil => rfl
  | cons event earlier ih =>
      have hearlier : ∀ time, .taken key time ∉ earlier :=
        fun time hmem => hnever time (List.mem_cons_of_mem _ hmem)
      cases event with
      | taken other time =>
          have hne : other ≠ key := by
            rintro rfl
            exact hnever time List.mem_cons_self
          rw [heldSince, if_neg hne]
          exact ih hearlier
      | released other =>
          rw [heldSince, ih hearlier, ite_self]

theorem heldSince_append_taken {key : K} {later : List (Event K)}
    (hlast : ∀ time, .taken key time ∉ later) (time : ℕ) (earlier : List (Event K)) :
    heldSince key (later ++ .taken key time :: earlier) =
      if .released key ∈ later then none else some time := by
  induction later with
  | nil => simp [heldSince]
  | cons event later ih =>
      have hlater := ih fun time hmem => hlast time (List.mem_cons_of_mem _ hmem)
      cases event with
      | taken other since =>
          have hne : other ≠ key := by
            rintro rfl
            exact hlast since List.mem_cons_self
          rw [List.cons_append, heldSince, if_neg hne, hlater]
          simp
      | released other =>
          rw [List.cons_append, heldSince, hlater]
          by_cases hkey : other = key
          · simp [hkey]
          · simp [hkey, Ne.symm hkey]

omit [DecidableEq K] in
theorem never_or_last_taken (key : K) (history : List (Event K)) :
    (∀ time, .taken key time ∉ history) ∨
      ∃ later time earlier, history = later ++ .taken key time :: earlier ∧
        ∀ other, .taken key other ∉ later := by
  induction history with
  | nil => exact .inl (by simp)
  | cons event history ih =>
      by_cases htaken : ∃ time, event = .taken key time
      · obtain ⟨time, rfl⟩ := htaken
        exact .inr ⟨[], time, history, rfl, by simp⟩
      · push Not at htaken
        rcases ih with hnever | ⟨later, time, earlier, rfl, hlast⟩
        · refine .inl fun time hmem => ?_
          rcases List.mem_cons.mp hmem with heq | hmem
          · exact htaken time heq.symm
          · exact hnever time hmem
        · refine .inr ⟨event :: later, time, earlier, rfl, fun other hmem => ?_⟩
          rcases List.mem_cons.mp hmem with heq | hmem
          · exact htaken other heq.symm
          · exact hlast other hmem

theorem free_iff {timeout : ℤ} {history : List (Event K)} {key : K} {now : ℕ} :
    Free timeout history key now ↔
      ∀ time, heldSince key history = some time → timeout ≤ (now : ℤ) - time := by
  constructor
  · rintro (hnever | ⟨later, time, earlier, rfl, hlast, hfree⟩) since hheld
    · rw [heldSince_of_never hnever] at hheld
      cases hheld
    · rw [heldSince_append_taken hlast] at hheld
      split_ifs at hheld with hreleased
      cases hheld
      exact hfree.resolve_right hreleased
  · intro hout
    rcases never_or_last_taken key history with
      hnever | ⟨later, time, earlier, rfl, hlast⟩
    · exact .inl hnever
    · refine .inr ⟨later, time, earlier, rfl, hlast, ?_⟩
      by_cases hreleased : .released key ∈ later
      · exact .inr hreleased
      · left
        apply hout time
        rw [heldSince_append_taken hlast, if_neg hreleased]

/-! ## Tables that follow the history -/

/-- What the table holds was taken last, and what it has lost has run out. -/
structure Tracks (timeout : ℤ) (table : Table K) (clock : ℕ)
    (history : List (Event K)) : Prop where
  present : ∀ key time, table key = some time → heldSince key history = some time
  absent : ∀ key time, table key = none → heldSince key history = some time →
    timeout ≤ (clock : ℤ) - time

section Tracks

variable {timeout : ℤ} {table : Table K} {clock : ℕ} {history : List (Event K)}

theorem tracks_empty (timeout : ℤ) (clock : ℕ) :
    Tracks timeout (fun _ : K => none) clock [] := by
  constructor
  · intro key time hpresent
    cases hpresent
  · intro key time _ hheld
    cases hheld

theorem Tracks.tick (htracks : Tracks timeout table clock history) {now : ℕ}
    (hle : clock ≤ now) : Tracks timeout table now history := by
  refine ⟨htracks.present, fun key time habsent hheld => ?_⟩
  have hout := htracks.absent key time habsent hheld
  omega

/-- From the clock on, the leases that run are those of the table. -/
theorem Tracks.free_iff (htracks : Tracks timeout table clock history) {now : ℕ}
    (hle : clock ≤ now) (key : K) :
    Free timeout history key now ↔
      ∀ time, table key = some time → timeout ≤ (now : ℤ) - time := by
  rw [Lease.free_iff]
  constructor
  · intro hout time hpresent
    exact hout time (htracks.present key time hpresent)
  · intro hout time hheld
    cases hentry : table key with
    | none => exact (htracks.tick hle).absent key time hentry hheld
    | some since =>
        have hsame := htracks.present key since hentry
        rw [hheld, Option.some.injEq] at hsame
        exact hout time (hsame ▸ hentry)

theorem Tracks.take (htracks : Tracks timeout table clock history) {now : ℕ}
    (hle : clock ≤ now) (key : K) :
    Tracks timeout (Function.update table key (some now)) now
      (.taken key now :: history) := by
  constructor
  · intro other time hpresent
    by_cases hkey : other = key
    · subst hkey
      rw [Function.update_self] at hpresent
      rw [heldSince, if_pos rfl, hpresent]
    · rw [Function.update_of_ne hkey] at hpresent
      rw [heldSince, if_neg (Ne.symm hkey)]
      exact htracks.present other time hpresent
  · intro other time habsent hheld
    by_cases hkey : other = key
    · subst hkey
      rw [Function.update_self] at habsent
      cases habsent
    · rw [Function.update_of_ne hkey] at habsent
      rw [heldSince, if_neg (Ne.symm hkey)] at hheld
      exact (htracks.tick hle).absent other time habsent hheld

theorem of_update_none_eq_some {key other : K} {time : ℕ}
    (hpresent : Function.update table key none other = some time) :
    other ≠ key ∧ table other = some time := by
  have hne : other ≠ key := by
    rintro rfl
    rw [Function.update_self] at hpresent
    cases hpresent
  rw [Function.update_of_ne hne] at hpresent
  exact ⟨hne, hpresent⟩

theorem Tracks.release (htracks : Tracks timeout table clock history) (key : K) :
    Tracks timeout (Function.update table key none) clock
      (.released key :: history) := by
  constructor
  · intro other time hpresent
    obtain ⟨hkey, hbefore⟩ := of_update_none_eq_some hpresent
    rw [heldSince, if_neg (Ne.symm hkey)]
    exact htracks.present other time hbefore
  · intro other time habsent hheld
    rw [heldSince] at hheld
    split_ifs at hheld with hkey
    rw [Function.update_of_ne (Ne.symm hkey)] at habsent
    exact htracks.absent other time habsent hheld

/-- An entry that has run out may be dropped. -/
theorem Tracks.drop (htracks : Tracks timeout table clock history) {now : ℕ}
    (hle : clock ≤ now) {key : K} {time : ℕ} (hentry : table key = some time)
    (hout : timeout ≤ (now : ℤ) - time) :
    Tracks timeout (Function.update table key none) now history := by
  constructor
  · intro other since hpresent
    exact htracks.present other since (of_update_none_eq_some hpresent).2
  · intro other since habsent hheld
    by_cases hkey : other = key
    · subst hkey
      rw [htracks.present other time hentry] at hheld
      cases hheld
      exact hout
    · rw [Function.update_of_ne hkey] at habsent
      exact (htracks.tick hle).absent other since habsent hheld

end Tracks

/-! ## Takes that keep their distance -/

/-- A key is taken only when its last lease has run out or was released. -/
def Apart (timeout : ℤ) : List (Event K) → Prop
  | [] => True
  | .taken key time :: earlier => Free timeout earlier key time ∧ Apart timeout earlier
  | .released _ :: earlier => Apart timeout earlier

omit [DecidableEq K] in
theorem Apart.of_append {timeout : ℤ} {later earlier : List (Event K)}
    (hapart : Apart timeout (later ++ earlier)) : Apart timeout earlier := by
  induction later with
  | nil => exact hapart
  | cons event later ih =>
      cases event with
      | taken key time => exact ih hapart.2
      | released key => exact ih hapart

theorem Apart.le {timeout : ℤ} {later between earlier : List (Event K)} {key : K}
    {first second : ℕ}
    (hapart : Apart timeout
      (later ++ .taken key second :: (between ++ .taken key first :: earlier)))
    (hsuccessive : ∀ time, .taken key time ∉ between)
    (hkept : .released key ∉ between) : timeout ≤ (second : ℤ) - first := by
  obtain ⟨hfree, -⟩ := hapart.of_append
  apply Lease.free_iff.mp hfree
  rw [heldSince_append_taken hsuccessive, if_neg hkept]

end FutureQ.Lease
