import Mathlib

/-!
# Effects that survive errors

A handler that changes a shared state in several steps and returns at the first
error leaves what it has done so far.  `Effectful` is the monad of such programs:
an error ends the program and keeps the state.
-/

namespace FutureQ.Effects

abbrev Effectful (σ ε α : Type) := ExceptT ε (StateM σ) α

variable {σ ε α β : Type}

/-- The outcome of a program and the state it leaves. -/
def exec (program : Effectful σ ε α) (state : σ) : Except ε α × σ :=
  program.run.run state

@[simp]
theorem exec_pure (value : α) (state : σ) :
    exec (pure value : Effectful σ ε α) state = (.ok value, state) := rfl

@[simp]
theorem exec_throw (err : ε) (state : σ) :
    exec (throw err : Effectful σ ε α) state = (.error err, state) := rfl

@[simp]
theorem exec_get (state : σ) :
    exec (get : Effectful σ ε σ) state = (.ok state, state) := rfl

@[simp]
theorem exec_set (next state : σ) :
    exec (set next : Effectful σ ε PUnit) state = (.ok ⟨⟩, next) := rfl

theorem exec_bind (first : Effectful σ ε α) (second : α → Effectful σ ε β)
    (state : σ) :
    exec (first >>= second) state =
      match exec first state with
      | (.ok value, next) => exec (second value) next
      | (.error err, next) => (.error err, next) := by
  simp only [exec, ExceptT.run_bind, StateT.run_bind]
  rcases first.run.run state with ⟨_ | _, next⟩
  · rfl
  · rfl

/-- A program gets to its end exactly when each of its steps does. -/
theorem exec_bind_eq_ok_iff {first : Effectful σ ε α}
    {second : α → Effectful σ ε β} {state finish : σ} {value : β} :
    exec (first >>= second) state = (.ok value, finish) ↔
      ∃ found middle, exec first state = (.ok found, middle) ∧
        exec (second found) middle = (.ok value, finish) := by
  rw [exec_bind]
  rcases exec first state with ⟨_ | found, middle⟩
  · simp
  · simp

/-- Whatever happens, the property of the state is kept. -/
def Preserves (property : σ → Prop) (program : Effectful σ ε α) : Prop :=
  ∀ state, property state → property (exec program state).2

/-- What the first step establishes and the others keep holds at the end. -/
theorem property_exec_bind {property : σ → Prop} {first : Effectful σ ε α}
    {second : α → Effectful σ ε β} {state : σ}
    (hfirst : property (exec first state).2)
    (hsecond : ∀ value, Preserves property (second value)) :
    property (exec (first >>= second) state).2 := by
  rw [exec_bind]
  rcases hmiddle : exec first state with ⟨_ | found, middle⟩
  · rw [hmiddle] at hfirst
    exact hfirst
  · rw [hmiddle] at hfirst
    exact hsecond found middle hfirst

theorem Preserves.bind {property : σ → Prop} {first : Effectful σ ε α}
    {second : α → Effectful σ ε β} (hfirst : Preserves property first)
    (hsecond : ∀ value, Preserves property (second value)) :
    Preserves property (first >>= second) :=
  fun state hstate => property_exec_bind (hfirst state hstate) hsecond

end FutureQ.Effects
