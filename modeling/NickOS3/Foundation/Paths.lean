import NickOS3.Foundation.Runs
import Mathlib.Algebra.Order.Ring.Nat
import Mathlib.Algebra.BigOperators.Group.List.Basic

/-!
# Paths between two states

A path is a part of a run with its labels, the latest first. What costs something along a
path is bounded by what the states gain, and a request that every step answers or moves up
is answered once enough work has been done.
-/

namespace Foundation

namespace Machine

variable {State Action : Type*} (M : Machine State Action)

/-- Steps from one state to another, each satisfying the guard. -/
inductive Path (allowed : State → Action → Prop) (s : State) : List Action → State → Prop
  | refl : Path allowed s [] s
  | step {s' s'' : State} {as : List Action} {a : Action} (path : Path allowed s as s')
      (ok : allowed s' a) (h : M.step s' a s'') : Path allowed s (a :: as) s''

/-- The path has a step that is an event of the given kind. -/
inductive Meets (allowed : State → Action → Prop) (event : State → Action → State → Prop)
    (s : State) : List Action → State → Prop
  | here {s' s'' : State} {as : List Action} {a : Action} (path : M.Path allowed s as s')
      (ok : allowed s' a) (h : M.step s' a s'') (occurs : event s' a s'') :
      Meets allowed event s (a :: as) s''
  | later {s' s'' : State} {as : List Action} {a : Action} (met : Meets allowed event s as s')
      (ok : allowed s' a) (h : M.step s' a s'') : Meets allowed event s (a :: as) s''

variable {M} {allowed : State → Action → Prop} {s s' : State} {as : List Action}

/-- Steps in turn continue a path. -/
theorem Path.along {step : State → Action → Option State} {test : State → Action → Bool}
    {u : State} {bs : List Action} (hok : ∀ s a, test s a = true → allowed s a)
    (hstep : ∀ s a s', test s a = true → step s a = some s' → M.step s a s')
    (path : M.Path allowed s bs u) (h : Machine.along step test u as = some s') :
    M.Path allowed s (as.reverse ++ bs) s' := by
  induction as generalizing u bs with
  | nil => cases h; exact path
  | cons a as ih =>
      rw [Machine.along, Option.ite_none_right_eq_some] at h
      obtain ⟨hsome, h⟩ := h
      obtain ⟨mid, hmid, hrest⟩ := Option.bind_eq_some_iff.mp h
      rw [List.reverse_cons, List.append_assoc]
      exact ih (.step path (hok u a hsome) (hstep u a mid hsome hmid)) hrest

/-- What each step costs is covered by what it adds to the potential. -/
theorem Path.cost_le {live : State → Prop} (cost : Action → Nat) (potential : State → Nat)
    (hlive : ∀ s a s', M.step s a s' → live s)
    (hstep : ∀ s a s', M.step s a s' → live s' → cost a + potential s ≤ potential s')
    (path : M.Path allowed s as s') (hend : live s') :
    (as.map cost).sum + potential s ≤ potential s' := by
  induction path with
  | refl => simp
  | step _ _ h ih =>
      have hbefore := ih (hlive _ _ _ h)
      have hlast := hstep _ _ _ h hend
      rw [List.map_cons, List.sum_cons]
      omega

/-- A request waits with a rank. If every step answers it or keeps it waiting and pays for the
work it does with the rank, then a path that does more work than the rank answers it. -/
theorem Path.meets_of_work {live : State → Prop} {event : State → Action → State → Prop}
    (waits : State → Prop) (rank work : State → Nat)
    (hlive : ∀ s a s', M.step s a s' → live s)
    (hstep : ∀ s a s', waits s → allowed s a → M.step s a s' → live s' →
      event s a s' ∨ waits s' ∧ rank s' + work s' ≤ rank s + work s)
    (path : M.Path allowed s as s') (hstart : waits s) (hend : live s')
    (hwork : rank s + work s < work s') : M.Meets allowed event s as s' := by
  have hkept : M.Meets allowed event s as s' ∨
      waits s' ∧ rank s' + work s' ≤ rank s + work s := by
    clear hwork
    induction path with
    | refl => exact .inr ⟨hstart, Nat.le_refl _⟩
    | step path ok h ih =>
        rcases ih (hlive _ _ _ h) with hmet | ⟨hwaits, hle⟩
        · exact .inl (.later hmet ok h)
        · rcases hstep _ _ _ hwaits ok h hend with hevent | ⟨hwaits', hle'⟩
          · exact .inl (.here path ok h hevent)
          · exact .inr ⟨hwaits', hle'.trans hle⟩
  rcases hkept with hmet | ⟨-, hle⟩
  · exact hmet
  · omega

end Machine

end Foundation
