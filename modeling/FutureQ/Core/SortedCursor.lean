import Mathlib

/-!
# Cursors over sorted entries

A cursor is what lies ahead of it: the entries from its place to the end, with
the one it stands at in front.  A range scan starts a cursor at the lower bound
and walks until the upper bound is reached.  Over sorted entries it meets exactly
the entries between the bounds, whether the bounds are given, missing or the
wrong way round.
-/

namespace FutureQ.SortedCursor

variable {K V α : Type*}

/-- A test that holds up to some place of a list selects the front of the list. -/
theorem takeWhile_eq_filter {test : α → Bool} {values : List α}
    (hmonotone : values.Pairwise fun first second => test second → test first) :
    values.takeWhile test = values.filter test := by
  induction values with
  | nil => rfl
  | cons value values ih =>
      rw [List.pairwise_cons] at hmonotone
      cases htest : test value with
      | true =>
          rw [List.takeWhile_cons_of_pos htest, List.filter_cons_of_pos htest,
            ih hmonotone.2]
      | false =>
          have hnone : ∀ later ∈ values, ¬ test later := by
            intro later hlater hpasses
            rw [hmonotone.1 later hlater hpasses] at htest
            cases htest
          rw [List.takeWhile_cons_of_neg (by simp [htest]),
            List.filter_cons_of_neg (by simp [htest]), List.filter_eq_nil_iff.mpr hnone]

/-- What remains behind that front is what fails the test. -/
theorem dropWhile_eq_filter {test : α → Bool} {values : List α}
    (hmonotone : values.Pairwise fun first second => test second → test first) :
    values.dropWhile test = values.filter fun value => !test value := by
  induction values with
  | nil => rfl
  | cons value values ih =>
      rw [List.pairwise_cons] at hmonotone
      cases htest : test value with
      | true =>
          rw [List.dropWhile_cons_of_pos htest, List.filter_cons_of_neg (by simp [htest]),
            ih hmonotone.2]
      | false =>
          have hall : ∀ later ∈ values, (!test later) = true := by
            intro later hlater
            cases hpasses : test later with
            | false => rfl
            | true =>
                rw [hmonotone.1 later hlater hpasses] at htest
                cases htest
          rw [List.dropWhile_cons_of_neg (by simp [htest]),
            List.filter_cons_of_pos (by simp [htest]), List.filter_eq_self.mpr hall]

variable [Ord K]

/-- The cursor at the first entry whose key is at least `key`. -/
def seek (entries : List (K × V)) (key : K) : List (K × V) :=
  entries.dropWhile fun entry => compare entry.1 key == .lt

/-- The cursor at the lower bound, or at the very first entry. -/
def start (entries : List (K × V)) : Option K → List (K × V)
  | some lower => seek entries lower
  | none => entries

/-- There is an exclusive upper bound and the key is not below it. -/
def reached (upper : Option K) (key : K) : Bool :=
  upper.any fun bound => (compare key bound).isGE

/-- What a cursor has ahead of it before the upper bound. -/
def upTo (cursor : List (K × V)) (upper : Option K) : List (K × V) :=
  cursor.takeWhile fun entry => !reached upper entry.1

/-- The key is between the bounds that are given. -/
def within (lower upper : Option K) (key : K) : Bool :=
  lower.all (fun bound => (compare bound key).isLE) && !reached upper key

@[simp]
theorem upTo_nil (upper : Option K) : upTo ([] : List (K × V)) upper = [] := rfl

theorem upTo_of_reached {upper : Option K} {entry : K × V}
    (hreached : reached upper entry.1 = true) (ahead : List (K × V)) :
    upTo (entry :: ahead) upper = [] :=
  List.takeWhile_cons_of_neg (by simp [hreached])

theorem upTo_of_not_reached {upper : Option K} {entry : K × V}
    (hreached : reached upper entry.1 = false) (ahead : List (K × V)) :
    upTo (entry :: ahead) upper = entry :: upTo ahead upper :=
  List.takeWhile_cons_of_pos (by simp [hreached])

variable [Std.TransOrd K]

theorem reached_mono {upper : Option K} {first second : K}
    (hlt : compare first second = .lt) (hreached : reached upper first = true) :
    reached upper second = true := by
  cases upper with
  | none => cases hreached
  | some bound =>
      rw [reached, Option.any_some] at hreached ⊢
      rw [Std.OrientedCmp.isGE_iff_isLE] at hreached ⊢
      exact Std.TransCmp.isLE_trans hreached (by rw [hlt]; rfl)

/-- A scan from the lower bound until the upper bound is reached meets the entries
between them. -/
theorem upTo_start {entries : List (K × V)}
    (hsorted : entries.Pairwise fun first second =>
      compare first.1 second.1 = .lt) (lower upper : Option K) :
    upTo (start entries lower) upper =
      entries.filter fun entry => within lower upper entry.1 := by
  have hupper : ∀ {values : List (K × V)},
      (values.Pairwise fun first second => compare first.1 second.1 = .lt) →
        upTo values upper = values.filter fun entry => !reached upper entry.1 := by
    intro values hvalues
    apply takeWhile_eq_filter
    refine hvalues.imp fun {first second} hlt hsecond => ?_
    cases hfirst : reached upper first.1 with
    | false => rfl
    | true =>
        rw [reached_mono hlt hfirst] at hsecond
        cases hsecond
  cases lower with
  | none =>
      rw [start, hupper hsorted]
      simp [within]
  | some bound =>
      have hseek : seek entries bound =
          entries.filter fun entry => (compare bound entry.1).isLE := by
        rw [seek, dropWhile_eq_filter]
        · apply List.filter_congr
          intro entry _
          have hswap : compare entry.1 bound = (compare bound entry.1).swap :=
            Std.OrientedCmp.eq_swap
          rw [hswap]
          cases compare bound entry.1 <;> rfl
        · refine hsorted.imp fun {first second} hlt hsecond => ?_
          exact beq_iff_eq.mpr (Std.TransCmp.lt_trans hlt (beq_iff_eq.mp hsecond))
      rw [start, hupper (by rw [hseek]; exact hsorted.filter _), hseek,
        List.filter_filter]
      apply List.filter_congr
      intro entry _
      rw [within, Option.all_some, Bool.and_comm]

end FutureQ.SortedCursor
