import Mathlib.Tactic.Common

/-! # Step systems

    A system is an initial predicate and a step relation labelled by
    actions. A property that holds initially and is kept by every step
    holds in every reachable state; a guard cuts a system down to the
    runs whose steps all meet a condition. -/

/-- A labelled transition system. -/
structure StepSystem (State Action : Type*) where
  init : State → Prop
  step : State → Action → State → Prop

namespace StepSystem

variable {State Action State' Action' : Type*}

/-- The states some run of the system ends in. -/
inductive Reachable (T : StepSystem State Action) : State → Prop where
  | init {s : State} : T.init s → Reachable T s
  | step {s s' : State} (a : Action) : Reachable T s → T.step s a s' → Reachable T s'

/-- A property of the initial states that every step keeps is an
    invariant. -/
theorem Reachable.invariant {T : StepSystem State Action} {Inv : State → Prop} {s : State}
    (hinit : ∀ s, T.init s → Inv s)
    (hstep : ∀ s a s', Inv s → T.step s a s' → Inv s')
    (h : T.Reachable s) : Inv s := by
  induction h with
  | init h0 => exact hinit _ h0
  | step a _ hs ih => exact hstep _ a _ ih hs

/-- The runs of a system whose every step meets a condition on the state
    before it and its action. -/
def guarded (T : StepSystem State Action) (guard : State → Action → Prop) :
    StepSystem State Action where
  init := T.init
  step := fun s a s' => guard s a ∧ T.step s a s'

theorem Reachable.of_guarded {T : StepSystem State Action} {guard : State → Action → Prop}
    {s : State} (h : (T.guarded guard).Reachable s) : T.Reachable s := by
  induction h with
  | init h0 => exact .init h0
  | step a _ hs ih => exact .step a ih hs.2

/-- A weaker condition lets the same runs through. -/
theorem Reachable.guarded_mono {T : StepSystem State Action} {guard guard' : State → Action → Prop}
    {s : State} (himp : ∀ s a, guard s a → guard' s a) (h : (T.guarded guard).Reachable s) :
    (T.guarded guard').Reachable s := by
  induction h with
  | init h0 => exact .init h0
  | step a _ hs ih => exact .step a ih ⟨himp _ a hs.1, hs.2⟩

/-- A state map under which every step is matched by a step or by
    nothing sends reachable states to reachable states. -/
theorem Reachable.map {T : StepSystem State Action} {T' : StepSystem State' Action'}
    {f : State → State'} {s : State}
    (hinit : ∀ s, T.init s → T'.init (f s))
    (hstep : ∀ s a s', T.Reachable s → T.step s a s' →
      f s' = f s ∨ ∃ b, T'.step (f s) b (f s'))
    (h : T.Reachable s) : T'.Reachable (f s) := by
  induction h with
  | init h0 => exact .init (hinit _ h0)
  | step a hr hs ih =>
    rcases hstep _ a _ hr hs with heq | ⟨b, hb⟩
    · rw [heq]; exact ih
    · exact .step b ih hb

/-- Run a list of actions of a step function; each must pass a check. -/
def run (step : State → Action → Option State) (check : State → Action → Bool) (s : State)
    (as : List Action) : Option State :=
  as.foldlM (fun s a => if check s a then step s a else none) s

/-- A run of checked steps of the system stays reachable. -/
theorem Reachable.of_run {T : StepSystem State Action} {step : State → Action → Option State}
    {check : State → Action → Bool} {as : List Action} {s s' : State}
    (hstep : ∀ s a s', check s a = true → step s a = some s' → T.step s a s')
    (h : T.Reachable s) (hrun : run step check s as = some s') : T.Reachable s' := by
  induction as generalizing s with
  | nil =>
    obtain rfl := Option.some.inj hrun
    exact h
  | cons a as ih =>
    unfold run at hrun
    rw [List.foldlM_cons] at hrun
    obtain ⟨s1, hs1, hrest⟩ := Option.bind_eq_some_iff.mp hrun
    by_cases hc : check s a = true
    · rw [if_pos hc] at hs1
      exact ih (.step a h (hstep s a s1 hc hs1)) hrest
    · rw [if_neg hc] at hs1
      cases hs1

end StepSystem
