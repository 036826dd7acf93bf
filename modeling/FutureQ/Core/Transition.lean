import Mathlib

/-!
# Runs of partial step functions

Interleavings are modelled by a step function on an explicit state: an action
names who moves and what the environment answers, and `none` means the action
is not enabled.  A run plays a list of actions.  `Meets` says that every action
of a run satisfies a guard in the state right before it, and `run_invariant` is
the induction that lifts a one-step argument to every state a run reaches.
-/

namespace FutureQ.Transition

variable {State Action : Type*}

def run (step : State → Action → Option State) (start : State)
    (actions : List Action) : Option State :=
  actions.foldlM step start

/-- Every action of the run satisfies the guard in the state it starts from. -/
def Meets (step : State → Action → Option State)
    (guard : State → Action → Prop) : State → List Action → Prop
  | _, [] => True
  | state, action :: actions =>
      guard state action ∧
        ∀ next, step state action = some next → Meets step guard next actions

def decideMeets (step : State → Action → Option State)
    (guard : State → Action → Prop)
    [∀ state action, Decidable (guard state action)] :
    (state : State) → (actions : List Action) →
      Decidable (Meets step guard state actions)
  | _, [] => isTrue trivial
  | state, action :: actions =>
      match hnext : step state action with
      | none => decidable_of_iff (guard state action) (by simp [Meets, hnext])
      | some next =>
          have := decideMeets step guard next actions
          decidable_of_iff (guard state action ∧ Meets step guard next actions)
            (by simp [Meets, hnext])

instance (step : State → Action → Option State) (guard : State → Action → Prop)
    [∀ state action, Decidable (guard state action)] (state : State)
    (actions : List Action) : Decidable (Meets step guard state actions) :=
  decideMeets step guard state actions

variable {step : State → Action → Option State}
variable {guard : State → Action → Prop}

@[simp]
theorem run_nil (start : State) : run step start [] = some start := rfl

theorem run_cons (start : State) (action : Action) (actions : List Action) :
    run step start (action :: actions) =
      (step start action).bind fun next => run step next actions := rfl

theorem run_cons_eq_some {start finish : State} {action : Action}
    {actions : List Action} :
    run step start (action :: actions) = some finish ↔
      ∃ next, step start action = some next ∧ run step next actions = some finish := by
  rw [run_cons, Option.bind_eq_some_iff]

/-- A run that can be evaluated ends in a state with a decidable property. -/
theorem exists_finish_of_any {start : State} {actions : List Action}
    {property : State → Prop} [DecidablePred property]
    (hany : (run step start actions).any (fun finish => property finish) = true) :
    ∃ finish, run step start actions = some finish ∧ property finish := by
  simpa [Option.any_eq_true] using hany

theorem run_append (start : State) (first second : List Action) :
    run step start (first ++ second) =
      (run step start first).bind fun middle => run step middle second := by
  simp [run, List.foldlM_append]

theorem run_append_of_run {start middle : State} {first : List Action}
    (hfirst : run step start first = some middle) (second : List Action) :
    run step start (first ++ second) = run step middle second := by
  rw [run_append, hfirst, Option.bind_some]

theorem meets_of_forall (hguard : ∀ state action, guard state action)
    (start : State) (actions : List Action) : Meets step guard start actions := by
  induction actions generalizing start with
  | nil => trivial
  | cons action actions ih => exact ⟨hguard start action, fun next _ => ih next⟩

/-- The guard of a run, for its two parts. -/
theorem meets_append {start : State} {first second : List Action}
    (hmeets : Meets step guard start (first ++ second)) :
    Meets step guard start first ∧
      ∀ middle, run step start first = some middle → Meets step guard middle second := by
  induction first generalizing start with
  | nil =>
      refine ⟨trivial, fun middle hmiddle => ?_⟩
      cases hmiddle
      exact hmeets
  | cons action actions ih =>
      obtain ⟨hguard, hrest⟩ := hmeets
      refine ⟨⟨hguard, fun next hnext => (ih (hrest next hnext)).1⟩, fun middle hrun => ?_⟩
      obtain ⟨next, hnext, hactions⟩ := run_cons_eq_some.mp hrun
      exact (ih (hrest next hnext)).2 middle hactions

/-- What every guarded step preserves holds at the end of every guarded run. -/
theorem run_invariant {Inv : State → Prop}
    (hstep : ∀ state action next, Inv state → guard state action →
      step state action = some next → Inv next)
    {actions : List Action} {start finish : State} (hstart : Inv start)
    (hmeets : Meets step guard start actions)
    (hrun : run step start actions = some finish) : Inv finish := by
  induction actions generalizing start with
  | nil =>
      rw [run_nil, Option.some.injEq] at hrun
      exact hrun ▸ hstart
  | cons action actions ih =>
      obtain ⟨next, hnext, hrest⟩ := run_cons_eq_some.mp hrun
      exact ih (hstep start action next hstart hmeets.1 hnext)
        (hmeets.2 next hnext) hrest

/-- What every step preserves holds at the end of every run. -/
theorem run_preserves {Inv : State → Prop}
    (hstep : ∀ state action next, Inv state → step state action = some next →
      Inv next)
    {actions : List Action} {start finish : State} (hstart : Inv start)
    (hrun : run step start actions = some finish) : Inv finish := by
  have hmeets : Meets step (fun _ _ => True) start actions :=
    meets_of_forall (fun _ _ => trivial) start actions
  exact run_invariant (fun state action next hinv _ => hstep state action next hinv)
    hstart hmeets hrun

/-- A run collects what its actions emit, step by step. -/
theorem run_collects {Item : Type*} {emits : Action → List Item}
    {Inv : List Item → State → Prop}
    (hstep : ∀ collected state action next, Inv collected state →
      step state action = some next → Inv (collected ++ emits action) next)
    {actions : List Action} {collected : List Item} {start finish : State}
    (hstart : Inv collected start) (hrun : run step start actions = some finish) :
    Inv (collected ++ actions.flatMap emits) finish := by
  induction actions generalizing collected start with
  | nil =>
      cases hrun
      simpa using hstart
  | cons action actions ih =>
      obtain ⟨next, hnext, hrest⟩ := run_cons_eq_some.mp hrun
      have hfinish := ih (hstep collected start action next hstart hnext) hrest
      rwa [List.append_assoc] at hfinish

/-- A system that can always move from its invariant to its invariant completes
every run. -/
theorem run_total {Inv : State → Prop} {actions : List Action}
    (hstep : ∀ state, ∀ action ∈ actions, Inv state →
      ∃ next, step state action = some next ∧ Inv next)
    {start : State} (hstart : Inv start) :
    ∃ finish, run step start actions = some finish ∧ Inv finish := by
  induction actions generalizing start with
  | nil => exact ⟨start, rfl, hstart⟩
  | cons action actions ih =>
      obtain ⟨next, hnext, hinv⟩ := hstep start action List.mem_cons_self hstart
      have htail : ∀ state, ∀ other ∈ actions, Inv state →
          ∃ next, step state other = some next ∧ Inv next :=
        fun state other hother => hstep state other (List.mem_cons_of_mem _ hother)
      obtain ⟨finish, hrest, hfinish⟩ := ih htail hinv
      exact ⟨finish, run_cons_eq_some.mpr ⟨next, hnext, hrest⟩, hfinish⟩

end FutureQ.Transition
