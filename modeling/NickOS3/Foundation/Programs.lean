import Mathlib.Logic.Basic

/-!
# Programs with a state and faults

A program reads and changes a state and either returns a value or stops with a
fault. Assertions about it are of partial correctness: they say what holds when it
returns, and nothing about a program that stops.
-/

namespace Foundation

/-- A program on states `σ` that may stop with a fault of `ε`. -/
abbrev Program (σ ε α : Type) := StateT σ (Except ε) α

namespace Program

variable {σ ε α β : Type}

section Runs

variable {s : σ}

@[simp] theorem bind_run (m : Program σ ε α) (f : α → Program σ ε β) :
    (m >>= f) s = (m s).bind fun r => f r.1 r.2 := rfl

@[simp] theorem map_run (f : α → β) (m : Program σ ε α) :
    (f <$> m) s = (m s).map fun r => (f r.1, r.2) := by
  cases h : m s <;> simp [Functor.map, StateT.map, h, Except.map, bind, Except.bind, pure,
    Except.pure]

@[simp] theorem pure_run (a : α) : (pure a : Program σ ε α) s = .ok (a, s) := rfl

@[simp] theorem throw_run (e : ε) : (throw e : Program σ ε α) s = .error e := rfl

/-- The run of a sequence, from the run of its first part. -/
theorem bind_run_of_ok {m : Program σ ε α} {f : α → Program σ ε β} {a : α} {s' : σ}
    (h : m s = .ok (a, s')) : (m >>= f) s = f a s' := by
  rw [bind_run, h]
  rfl

/-- A sequence stops where its first part does. -/
theorem bind_run_of_error {m : Program σ ε α} {f : α → Program σ ε β} {e : ε}
    (h : m s = .error e) : (m >>= f) s = .error e := by
  rw [bind_run, h]
  rfl

/-- What a sequence returns, its second part returned after its first. -/
theorem bind_eq_ok {m : Program σ ε α} {f : α → Program σ ε β} {b : β} {s' : σ}
    (h : (m >>= f) s = .ok (b, s')) : ∃ a mid, m s = .ok (a, mid) ∧ f a mid = .ok (b, s') := by
  rw [bind_run] at h
  cases hm : m s with
  | error e => rw [hm] at h; cases h
  | ok r =>
      rw [hm] at h
      exact ⟨r.1, r.2, rfl, h⟩

end Runs

/-- Started where `P` holds, `m` returns only values and states with `Q`. -/
def Ensures (P : σ → Prop) (m : Program σ ε α) (Q : α → σ → Prop) : Prop :=
  ∀ s, P s → ∀ a s', m s = .ok (a, s') → Q a s'

section Rules

variable {P : σ → Prop} {Q : α → σ → Prop}

theorem Ensures.pure {a : α} (h : ∀ s, P s → Q a s) :
    Ensures P (Pure.pure a : Program σ ε α) Q := by
  intro s hs a' s' hrun
  cases hrun
  exact h s hs

theorem Ensures.throw {e : ε} : Ensures P (throw e : Program σ ε α) Q := by
  intro s _ a s' hrun
  cases hrun

theorem Ensures.bind {m : Program σ ε α} {f : α → Program σ ε β} {R : β → σ → Prop}
    (hm : Ensures P m Q) (hf : ∀ a, Ensures (Q a) (f a) R) : Ensures P (m >>= f) R := by
  intro s hs b s' hrun
  obtain ⟨a, mid, hfirst, hrest⟩ := bind_eq_ok hrun
  exact hf a mid (hm s hs a mid hfirst) b s' hrest

theorem Ensures.ite {p : Prop} [Decidable p] {m m' : Program σ ε α}
    (hm : p → Ensures P m Q) (hm' : ¬ p → Ensures P m' Q) :
    Ensures P (if p then m else m') Q := by
  split
  · exact hm ‹_›
  · exact hm' ‹_›

end Rules

/-- `m` keeps `I`. -/
abbrev Keeps (I : σ → Prop) (m : Program σ ε α) : Prop := Ensures I m fun _ => I

theorem Keeps.bind {I : σ → Prop} {m : Program σ ε α} {f : α → Program σ ε β}
    (hm : Keeps I m) (hf : ∀ a, Keeps I (f a)) : Keeps I (m >>= f) :=
  Ensures.bind hm hf

theorem Keeps.pure {I : σ → Prop} {a : α} : Keeps I (Pure.pure a : Program σ ε α) :=
  Ensures.pure fun _ h => h

end Program

end Foundation
