import Mathlib.Data.List.Basic
import Mathlib.Logic.Function.Basic
import NickOS3.Foundation.Runs

/-!
# Programs that share a state

A program makes one access to a state after the other. Programs of several parties interleave
access by access. Some accesses belong together and form a section. An invariant that the accesses
of every program keep, whatever the state is between two of them, holds in every interleaving in
which no access falls into a section of another party.
-/

namespace Foundation

/-- A program that makes one access after the other and goes on with each answer. -/
inductive Accesses (Op : Type) (Answer : Op → Type) (α : Type) : Type
  | done (value : α)
  | access (op : Op) (next : Answer op → Accesses Op Answer α)

/-- What an access does to a state, and which section a party is in behind it. -/
structure Resource (σ Op : Type) (Answer : Op → Type) (H : Type) where
  perform : (op : Op) → σ → Answer op × σ
  held : H → Op → H
  free : H

namespace Accesses

variable {Op : Type} {Answer : Op → Type} {α β : Type}

def bind : Accesses Op Answer α → (α → Accesses Op Answer β) → Accesses Op Answer β
  | done a, f => f a
  | access op next, f => access op fun x => (next x).bind f

instance : Monad (Accesses Op Answer) where
  pure := done
  bind := bind

def make (op : Op) : Accesses Op Answer (Answer op) := access op done

/-- A loop over a list. -/
def each (f : β → Accesses Op Answer Unit) : List β → Accesses Op Answer Unit
  | [] => done ()
  | b :: bs => (f b).bind fun _ => each f bs

end Accesses

namespace Resource

open Accesses

variable {σ Op H : Type} {Answer : Op → Type} {α β : Type} (R : Resource σ Op Answer H)

/-! ## A program alone -/

def run : Accesses Op Answer α → σ → α × σ
  | done a, s => (a, s)
  | access op next, s => run (next (R.perform op s).1) (R.perform op s).2

section Run

variable {s : σ}

@[simp] theorem run_pure (a : α) : R.run (pure a : Accesses Op Answer α) s = (a, s) := rfl

@[simp] theorem run_make (op : Op) : R.run (make op) s = R.perform op s := rfl

@[simp] theorem run_bind (m : Accesses Op Answer α) (f : α → Accesses Op Answer β) :
    R.run (m >>= f) s = R.run (f (R.run m s).1) (R.run m s).2 := by
  change R.run (m.bind f) s = _
  induction m generalizing s with
  | done a => rfl
  | access op next ih => exact ih _

theorem run_each {f : β → Accesses Op Answer Unit} {g : σ → β → σ}
    (h : ∀ b s, (R.run (f b) s).2 = g s b) (bs : List β) :
    (R.run (each f bs) s).2 = bs.foldl g s := by
  induction bs generalizing s with
  | nil => rfl
  | cons b bs ih =>
      have hbind : R.run (each f (b :: bs)) s = R.run (each f bs) (R.run (f b) s).2 :=
        R.run_bind (f b) fun _ => each f bs
      rw [hbind, ih, h, List.foldl_cons]

end Run

/-! ## A program among others -/

section Keeps

variable (Inv : H → σ → Prop)

/-- Every access keeps the invariant, in every state that has it, and the program ends outside of
sections with a value that satisfies `Q`. -/
def Keeps (Q : α → Prop) : H → Accesses Op Answer α → Prop
  | h, done a => h = R.free ∧ Q a
  | h, access op next => ∀ s, Inv h s →
      Inv (R.held h op) (R.perform op s).2 ∧ Keeps Q (R.held h op) (next (R.perform op s).1)

variable {R} {Inv}

theorem Keeps.pure {Q : α → Prop} {a : α} (h : Q a) :
    R.Keeps Inv Q R.free (Pure.pure a : Accesses Op Answer α) := ⟨rfl, h⟩

theorem Keeps.bind {Q : α → Prop} {P : β → Prop} {h : H} {m : Accesses Op Answer α}
    {f : α → Accesses Op Answer β} (hm : R.Keeps Inv Q h m)
    (hf : ∀ a, Q a → R.Keeps Inv P R.free (f a)) : R.Keeps Inv P h (m >>= f) := by
  change R.Keeps Inv P h (m.bind f)
  induction m generalizing h with
  | done a =>
      obtain ⟨rfl, ha⟩ := hm
      exact hf a ha
  | access op next ih =>
      intro s hs
      obtain ⟨hinv, hnext⟩ := hm s hs
      exact ⟨hinv, ih _ hnext⟩

theorem Keeps.each {P : β → Prop} {f : β → Accesses Op Answer Unit}
    (hf : ∀ b, P b → R.Keeps Inv (fun _ => True) R.free (f b)) {bs : List β}
    (hbs : ∀ b ∈ bs, P b) : R.Keeps Inv (fun _ => True) R.free (each f bs) := by
  induction bs with
  | nil => exact ⟨rfl, trivial⟩
  | cons b bs ih =>
      refine Keeps.bind (hf b (hbs b List.mem_cons_self)) fun _ _ => ?_
      exact ih fun b' hb' => hbs b' (List.mem_cons_of_mem b hb')

end Keeps

end Resource

/-! ## Parties -/

/-- Parties with what is left of their calls, the sections they are in, their calls to come, and the
calls that have begun. -/
structure Parties (σ Op : Type) (Answer : Op → Type) (H ι Call : Type) where
  shared : σ
  current : ι → Accesses Op Answer Unit
  holds : ι → H
  waiting : ι → List Call
  begun : List (ι × Call)

/-- A party begins its next call, or makes its next access. -/
inductive Turn (ι : Type)
  | begin (i : ι)
  | access (i : ι)

section Parties

variable {σ Op H ι Call : Type} {Answer : Op → Type} [DecidableEq ι]
  (R : Resource σ Op Answer H) (program : Call → Accesses Op Answer Unit)

namespace Parties

def next (s : Parties σ Op Answer H ι Call) : Turn ι → Option (Parties σ Op Answer H ι Call)
  | .begin i =>
      match s.current i, s.waiting i with
      | .done (), c :: cs =>
          some { s with
            current := Function.update s.current i (program c)
            waiting := Function.update s.waiting i cs
            begun := s.begun ++ [(i, c)] }
      | _, _ => none
  | .access i =>
      match s.current i with
      | .access op next =>
          some { s with
            shared := (R.perform op s.shared).2
            current := Function.update s.current i (next (R.perform op s.shared).1)
            holds := Function.update s.holds i (R.held (s.holds i) op) }
      | .done () => none

/-- No access falls into another party's section. -/
def Undisturbed (s : Parties σ Op Answer H ι Call) : Turn ι → Prop
  | .begin _ => True
  | .access i => ∀ j ≠ i, s.holds j = R.free

end Parties

/-- Parties with calls to make, in any interleaving. -/
def partiesMachine (start : σ) (calls : ι → List Call) :
    Machine (Parties σ Op Answer H ι Call) (Turn ι) where
  start s := s.shared = start ∧ (∀ i, s.current i = .done ()) ∧ (∀ i, s.holds i = R.free) ∧
    s.waiting = calls ∧ s.begun = []
  step s a s' := s.next R program a = some s'

namespace Parties

variable {R} {program} {start : σ} {calls : ι → List Call} {s s' : Parties σ Op Answer H ι Call}

theorem next_begin {i : ι} (h : s.next R program (.begin i) = some s') :
    ∃ c cs, s.current i = .done () ∧ s.waiting i = c :: cs ∧
      s' = { s with
        current := Function.update s.current i (program c)
        waiting := Function.update s.waiting i cs
        begun := s.begun ++ [(i, c)] } := by
  unfold next at h
  dsimp only at h
  split at h
  · rename_i c cs hcurrent hwaiting
    exact ⟨c, cs, hcurrent, hwaiting, (Option.some.inj h).symm⟩
  · cases h

theorem next_access {i : ι} (h : s.next R program (.access i) = some s') :
    ∃ op next, s.current i = .access op next ∧
      s' = { s with
        shared := (R.perform op s.shared).2
        current := Function.update s.current i (next (R.perform op s.shared).1)
        holds := Function.update s.holds i (R.held (s.holds i) op) } := by
  unfold Parties.next at h
  dsimp only at h
  split at h
  · rename_i op next hcurrent
    exact ⟨op, next, hcurrent, (Option.some.inj h).symm⟩
  · cases h

/-- Turns one after the other, as long as they are allowed. -/
def turns (R : Resource σ Op Answer H) (program : Call → Accesses Op Answer Unit)
    (allowed : Parties σ Op Answer H ι Call → Turn ι → Prop) [∀ s a, Decidable (allowed s a)] :
    List (Turn ι) → Parties σ Op Answer H ι Call → Option (Parties σ Op Answer H ι Call)
  | [], s => some s
  | a :: as, s =>
      if allowed s a then (s.next R program a).bind (turns R program allowed as) else none

theorem reach_turns {allowed : Parties σ Op Answer H ι Call → Turn ι → Prop}
    [∀ s a, Decidable (allowed s a)]
    (run : (partiesMachine R program start calls).Reach allowed s) (as : List (Turn ι))
    (h : turns R program allowed as s = some s') :
    (partiesMachine R program start calls).Reach allowed s' := by
  induction as generalizing s with
  | nil => exact Option.some.inj h ▸ run
  | cons a as ih =>
      rw [turns] at h
      split at h
      · rename_i hallowed
        obtain ⟨mid, hmid, hrest⟩ := Option.bind_eq_some_iff.mp h
        exact ih (.step run hallowed hmid) hrest
      · cases h

/-! ### Sections -/

section Sections

variable {Inv : H → σ → Prop}

/-- All programs keep the invariant, and it holds for the party that is in a section. -/
structure Sound (R : Resource σ Op Answer H) (Inv : H → σ → Prop)
    (s : Parties σ Op Answer H ι Call) : Prop where
  keeps : ∀ i, R.Keeps Inv (fun _ => True) (s.holds i) (s.current i)
  holds : (∀ i, s.holds i = R.free) ∧ Inv R.free s.shared ∨
    ∃ i, (∀ j ≠ i, s.holds j = R.free) ∧ Inv (s.holds i) s.shared

/-- The invariant holds for a party whose accesses disturb no other one. -/
theorem Sound.inv (h : s.Sound R Inv) {i : ι} (hfree : ∀ j ≠ i, s.holds j = R.free) :
    Inv (s.holds i) s.shared := by
  rcases h.holds with ⟨hall, hinv⟩ | ⟨k, hothers, hinv⟩
  · rw [hall]
    exact hinv
  · by_cases hki : k = i
    · rw [← hki]
      exact hinv
    · rw [hothers i (Ne.symm hki), ← hfree k hki]
      exact hinv

theorem Sound.begin (h : s.Sound R Inv)
    (hprogram : ∀ c, R.Keeps Inv (fun _ => True) R.free (program c)) {i : ι}
    (hnext : s.next R program (.begin i) = some s') : s'.Sound R Inv := by
  obtain ⟨c, cs, hcurrent, -, rfl⟩ := next_begin hnext
  refine ⟨fun j => ?_, h.holds⟩
  dsimp only
  by_cases hj : j = i
  · subst hj
    have hdone := h.keeps j
    rw [hcurrent] at hdone
    rw [Function.update_self, hdone.1]
    exact hprogram c
  · rw [Function.update_of_ne hj]
    exact h.keeps j

theorem Sound.access (h : s.Sound R Inv) {i : ι} (hfree : ∀ j ≠ i, s.holds j = R.free)
    (hnext : s.next R program (.access i) = some s') : s'.Sound R Inv := by
  obtain ⟨op, next, hcurrent, rfl⟩ := next_access hnext
  have hkeeps := h.keeps i
  rw [hcurrent] at hkeeps
  obtain ⟨hinv, hrest⟩ := hkeeps s.shared (h.inv hfree)
  refine ⟨fun j => ?_, .inr ⟨i, fun j hj => ?_, ?_⟩⟩ <;> dsimp only
  · by_cases hj : j = i
    · subst hj
      rw [Function.update_self, Function.update_self]
      exact hrest
    · rw [Function.update_of_ne hj, Function.update_of_ne hj]
      exact h.keeps j
  · rw [Function.update_of_ne hj]
    exact hfree j hj
  · rw [Function.update_self]
    exact hinv

/-- What every section's invariant implies holds in every state of an undisturbed run. -/
theorem invariant_of_undisturbed {P : σ → Prop} (hP : ∀ h s, Inv h s → P s)
    (hprogram : ∀ c, R.Keeps Inv (fun _ => True) R.free (program c)) (hstart : Inv R.free start)
    (run : (partiesMachine R program start calls).Reach (Undisturbed R) s) : P s.shared := by
  have hsound : s.Sound R Inv := by
    refine run.invariant ?_ ?_
    · rintro s ⟨rfl, hcurrent, hholds, -, -⟩
      refine ⟨fun i => ?_, .inl ⟨hholds, hstart⟩⟩
      rw [hcurrent, hholds]
      exact ⟨rfl, trivial⟩
    · intro s a s' h hundisturbed hnext
      cases a with
      | begin i => exact h.begin hprogram hnext
      | access i => exact h.access hundisturbed hnext
  rcases hsound.holds with ⟨-, hinv⟩ | ⟨i, -, hinv⟩
  · exact hP _ _ hinv
  · exact hP _ _ hinv

end Sections

end Parties

end Parties

end Foundation
