import Mathlib

/-!
# Outcomes of Go calls

A Go function returns a value, returns an error, or panics.  Panics are kept
apart from errors because callers handle the two differently: an error is a
value that can be logged and ignored, a panic ends the process.
-/

namespace FutureQ.GoRuntime

/-- The run-time panics that the modelled code can raise. -/
inductive Panic where
  | indexOutOfRange
  | sliceBoundsOutOfRange
  | integerDivideByZero
  | makeSliceLenOutOfRange
  | makeSliceCapOutOfRange
  deriving DecidableEq, Repr

/-- Why a call did not return a value. -/
inductive Fault (ε : Type) where
  | error (err : ε)
  | panic (reason : Panic)
  deriving DecidableEq, Repr

abbrev GoResult (ε α : Type) := Except (Fault ε) α

/-- The largest allocation the runtime attempts on a 64-bit platform. -/
def maxAlloc : ℕ := 2 ^ 48

/-- The checks of `make([]T, len, cap)` for elements of `elemSize` bytes.  That the memory
runs out below `maxAlloc` ends the process without a panic and is not modelled. -/
def makeSlice {ε : Type} (elemSize : ℕ) (len cap : ℤ) : GoResult ε Unit :=
  if 0 ≤ len ∧ len ≤ cap ∧ elemSize * cap ≤ maxAlloc then .ok ()
  else if len < 0 ∨ maxAlloc < elemSize * len then
    .error (.panic .makeSliceLenOutOfRange)
  else .error (.panic .makeSliceCapOutOfRange)

/-- The call comes back to its caller, with a value or with an error. -/
def Returns {ε α : Type} (result : GoResult ε α) : Prop :=
  ∀ reason, result ≠ .error (.panic reason)

instance {ε α : Type} (result : GoResult ε α) : Decidable (Returns result) :=
  match result with
  | .ok _ => isTrue fun _ h => by cases h
  | .error (.error _) => isTrue fun _ h => by cases h
  | .error (.panic reason) => isFalse fun h => h reason rfl

instance decidableForallOk {ε α : Type} (result : Except ε α) (property : α → Prop)
    [DecidablePred property] :
    Decidable (∀ value, result = .ok value → property value) :=
  match result with
  | .ok value => decidable_of_iff (property value) (by simp)
  | .error _ => isTrue fun _ h => by cases h

theorem returns_error {ε α : Type} (err : ε) :
    Returns (.error (.error err) : GoResult ε α) := fun _ h => by cases h

/-- A call that returns and does not succeed reports an error. -/
theorem exists_error {ε α : Type} {result : GoResult ε α} (hreturns : Returns result)
    (hfails : ∀ value, result ≠ .ok value) : ∃ err, result = .error (.error err) := by
  cases result with
  | ok value => exact absurd rfl (hfails value)
  | error fault =>
      cases fault with
      | error err => exact ⟨err, rfl⟩
      | panic reason => exact absurd rfl (hreturns reason)

/-- A sequence of calls returns a value exactly when both calls do. -/
theorem bind_eq_ok_iff {ε α β : Type} {first : Except ε α}
    {next : α → Except ε β} {value : β} :
    (first >>= next) = .ok value ↔
      ∃ middle, first = .ok middle ∧ next middle = .ok value := by
  cases first with
  | error fault => simp [bind, Except.bind]
  | ok middle => simp [bind, Except.bind]

theorem ok_bind {ε α β : Type} (value : α) (next : α → Except ε β) :
    (Except.ok value >>= next) = next value := rfl

/-- A guard that returns an error lets the call succeed exactly when it does not
fire. -/
theorem guard_eq_ok_iff {ε α β : Type} {fires : Prop} [Decidable fires]
    {fault : Fault ε} {dead : α → GoResult ε β} {rest : GoResult ε β} {value : β} :
    (if fires then throw fault >>= dead else rest) = .ok value ↔
      ¬ fires ∧ rest = .ok value := by
  by_cases hfires : fires
  · simp [hfires, throw, throwThe, MonadExceptOf.throw, bind, Except.bind]
  · simp [hfires]

theorem returns_ok {ε α : Type} (value : α) :
    Returns (.ok value : GoResult ε α) := fun _ h => by cases h

/-- A sequence of calls comes back when both calls do. -/
theorem Returns.bind {ε α β : Type} {first : GoResult ε α}
    {next : α → GoResult ε β} (hfirst : Returns first)
    (hnext : ∀ value, Returns (next value)) : Returns (first >>= next) := by
  intro reason hpanic
  cases hcall : first with
  | ok value =>
      rw [hcall, ok_bind] at hpanic
      exact hnext value reason hpanic
  | error fault =>
      rw [hcall] at hpanic
      have hfault : fault = .panic reason := Except.error.inj hpanic
      exact hfirst reason (hcall.trans (congrArg Except.error hfault))

theorem returns_guard {ε α β : Type} {fires : Prop} [Decidable fires] {err : ε}
    {dead : α → GoResult ε β} {rest : GoResult ε β}
    (hrest : ¬ fires → Returns rest) :
    Returns (if fires then throw (.error err) >>= dead else rest) := by
  by_cases hfires : fires
  · rw [if_pos hfires]
    intro reason hpanic
    cases hpanic
  · rw [if_neg hfires]
    exact hrest hfires

/-- A loop that collects results succeeds when every call does. -/
theorem mapM_eq_ok_iff {ε α β : Type} {f : α → Except ε β} {values : List α}
    {results : List β} :
    values.mapM f = .ok results ↔
      List.Forall₂ (fun value result => f value = .ok result) values results := by
  induction values generalizing results with
  | nil => cases results <;> simp [pure, Except.pure]
  | cons value values ih =>
      simp only [List.mapM_cons, bind_eq_ok_iff, ih, pure, Except.pure,
        Except.ok.injEq, List.forall₂_cons_left_iff]
      constructor
      · rintro ⟨result, hresult, rest, hrest, rfl⟩
        exact ⟨result, rest, hresult, hrest, rfl⟩
      · rintro ⟨result, rest, hresult, hrest, rfl⟩
        exact ⟨result, hresult, rest, hrest, rfl⟩

/-- A loop of checks passes when every check does. -/
theorem forM_eq_ok_iff {ε α : Type} {f : α → Except ε Unit} {values : List α} :
    values.forM f = .ok () ↔ ∀ value ∈ values, f value = .ok () := by
  induction values with
  | nil => simp [pure, Except.pure]
  | cons value values ih =>
      change (f value >>= fun _ => values.forM f) = .ok () ↔ _
      rw [bind_eq_ok_iff, List.forall_mem_cons, ← ih]
      exact ⟨fun ⟨_, hhead, hrest⟩ => ⟨hhead, hrest⟩,
        fun ⟨hhead, hrest⟩ => ⟨(), hhead, hrest⟩⟩

/-- A call that can be evaluated returns a value with a decidable property. -/
theorem exists_ok_of_any {ε α : Type} {result : Except ε α} {property : α → Prop}
    [DecidablePred property]
    (hany : result.toOption.any (fun value => property value) = true) :
    ∃ value, result = .ok value ∧ property value := by
  cases result with
  | error err => cases hany
  | ok value => exact ⟨value, rfl, of_decide_eq_true hany⟩

theorem filterMap_toOption {ε α β : Type} {f : α → Except ε β} {values : List α}
    {results : List β}
    (hresults : List.Forall₂ (fun value result => f value = .ok result) values
      results) :
    values.filterMap (fun value => (f value).toOption) = results := by
  induction hresults with
  | nil => rfl
  | cons hhead _ ih =>
      rw [List.filterMap_cons, hhead, ih]
      rfl

/-- Every result of such a loop comes from one of the calls. -/
theorem exists_mem_of_forall₂ {α β : Type} {relation : α → β → Prop}
    {values : List α} {results : List β}
    (hresults : List.Forall₂ relation values results) {result : β}
    (hresult : result ∈ results) : ∃ value ∈ values, relation value result := by
  induction hresults with
  | nil => exact absurd hresult List.not_mem_nil
  | cons hhead _ ih =>
      rcases List.mem_cons.mp hresult with rfl | hlater
      · exact ⟨_, List.mem_cons_self, hhead⟩
      · obtain ⟨value, hvalue, hrelation⟩ := ih hlater
        exact ⟨value, List.mem_cons_of_mem _ hvalue, hrelation⟩

theorem mapError_eq_ok_iff {ε δ α : Type} {f : ε → δ} {result : Except ε α}
    {value : α} : result.mapError f = .ok value ↔ result = .ok value := by
  cases result <;> simp [Except.mapError]

theorem pure_eq_ok_iff {ε α : Type} {left right : α} :
    (pure left : GoResult ε α) = .ok right ↔ left = right := by
  simp [pure, Except.pure]

theorem makeSlice_eq_ok_iff {ε : Type} {elemSize : ℕ} {len cap : ℤ} :
    makeSlice (ε := ε) elemSize len cap = .ok () ↔
      0 ≤ len ∧ len ≤ cap ∧ elemSize * cap ≤ maxAlloc := by
  unfold makeSlice
  split
  · simp_all
  · split <;> simp_all

/-! ## Signed words -/

/-- Converting a signed word that is not negative keeps its value. -/
theorem toNat_toUInt64 {value : Int64} (hnonneg : 0 ≤ value.toInt) :
    value.toUInt64.toNat = value.toInt.toNat := by
  have hint : value.toBitVec.toInt = value.toInt := rfl
  have hnat : value.toUInt64.toNat = value.toBitVec.toNat := rfl
  rw [hnat, ← hint]
  rw [← hint, BitVec.toInt_eq_toNat_cond] at hnonneg
  rw [BitVec.toInt_eq_toNat_cond]
  split at hnonneg
  · rw [if_pos ‹_›, Int.toNat_natCast]
  · have hbound := value.toBitVec.isLt
    omega

/-- A sum that does not overflow is the sum of the integers. -/
theorem toInt_add {left right : Int64}
    (hlower : -2 ^ 63 ≤ left.toInt + right.toInt)
    (hupper : left.toInt + right.toInt < 2 ^ 63) :
    (left + right).toInt = left.toInt + right.toInt := by
  rw [Int64.toInt_add, Int.bmod_eq_of_le]
  · omega
  · omega

/-- A sum of words that are not negative and that overflows is negative. -/
theorem toInt_add_of_overflow {left right : Int64}
    (hoverflow : 2 ^ 63 ≤ left.toInt + right.toInt) :
    (left + right).toInt = left.toInt + right.toInt - 2 ^ 64 := by
  have hleft := left.toInt_lt
  have hright := right.toInt_lt
  rw [Int64.toInt_add, Int.bmod_eq_emod]
  split <;> omega

end FutureQ.GoRuntime
