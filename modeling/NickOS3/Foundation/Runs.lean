import Mathlib.Logic.Basic

/-!
# Guarded runs of a transition system

A run starts in a start state and takes labelled steps. A guard restricts which
steps a run may take; it reads the state before the step and the label, never
the state after it.
-/

namespace Foundation

/-- A transition system: where runs start, and what a labelled step may do. -/
structure Machine (State Action : Type*) where
  start : State → Prop
  step : State → Action → State → Prop

namespace Machine

variable {State Action : Type*} (M : Machine State Action)

/-- The states reached by runs whose every step satisfies the guard. -/
inductive Reach (allowed : State → Action → Prop) : State → Prop
  | start {s : State} (h : M.start s) : Reach allowed s
  | step {s s' : State} {a : Action} (run : Reach allowed s) (ok : allowed s a)
      (h : M.step s a s') : Reach allowed s'

/-- The states reached by arbitrary runs. -/
abbrev Reachable : State → Prop := M.Reach fun _ _ => True

variable {M}

/-- What holds at the start and survives every admitted step holds along the run. -/
theorem Reach.invariant {allowed : State → Action → Prop} {Inv : State → Prop}
    (hstart : ∀ s, M.start s → Inv s)
    (hstep : ∀ s a s', Inv s → allowed s a → M.step s a s' → Inv s')
    {s : State} (run : M.Reach allowed s) : Inv s := by
  induction run with
  | start h => exact hstart _ h
  | step _ ok h ih => exact hstep _ _ _ ih ok h

/-- A weaker guard admits more runs. -/
theorem Reach.mono {allowed allowed' : State → Action → Prop}
    (hle : ∀ s a, allowed s a → allowed' s a)
    {s : State} (run : M.Reach allowed s) : M.Reach allowed' s := by
  induction run with
  | start h => exact .start h
  | step _ ok h ih => exact .step ih (hle _ _ ok) h

/-- A list of steps in turn, each with the test's consent. -/
def along (step : State → Action → Option State) (test : State → Action → Bool) (s : State) :
    List Action → Option State
  | [] => some s
  | a :: rest => if test s a then (step s a).bind fun s => along step test s rest else none

/-- Steps in turn continue a run. -/
theorem Reach.along {step : State → Action → Option State} {test : State → Action → Bool}
    {allowed : State → Action → Prop} {s s' : State} {as : List Action}
    (hok : ∀ s a, test s a = true → allowed s a)
    (hstep : ∀ s a s', test s a = true → step s a = some s' → M.step s a s')
    (run : M.Reach allowed s) (h : Machine.along step test s as = some s') :
    M.Reach allowed s' := by
  induction as generalizing s with
  | nil => cases h; exact run
  | cons a as ih =>
      rw [Machine.along, Option.ite_none_right_eq_some] at h
      obtain ⟨hsome, h⟩ := h
      obtain ⟨mid, hmid, hrest⟩ := Option.bind_eq_some_iff.mp h
      exact ih (.step run (hok s a hsome) (hstep s a mid hsome hmid)) hrest

end Machine

end Foundation
