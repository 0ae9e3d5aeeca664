import NickOS3.Foundation.Links

/-!
# Tilings of an interval

Blocks that each begin where the one before ends tile an interval: they are in order,
do not overlap, and cover it.
-/

namespace Foundation

/-- The blocks at the addresses of `l` tile the interval from `start` to `stop`. -/
def Tiles (size : Nat → Nat) (start : Nat) (l : List Nat) (stop : Nat) : Prop :=
  Follows (fun a => a + size a) start l stop

@[simp] theorem tiles_cons {size : Nat → Nat} {start b stop : Nat} {l : List Nat} :
    Tiles size start (b :: l) stop ↔ start = b ∧ Tiles size (b + size b) l stop := Iff.rfl

namespace Tiles

variable {size : Nat → Nat} {start stop : Nat} {l : List Nat}

/-- Every block lies in the interval. -/
theorem bounds (h : Tiles size start l stop) :
    start ≤ stop ∧ ∀ x ∈ l, start ≤ x ∧ x + size x ≤ stop := by
  induction l generalizing start with
  | nil => exact ⟨le_of_eq h, by simp⟩
  | cons b l ih =>
      obtain ⟨rfl, h⟩ := tiles_cons.mp h
      obtain ⟨hle, hall⟩ := ih h
      refine ⟨by omega, ?_⟩
      intro x hx
      rcases List.mem_cons.mp hx with rfl | hx
      · exact ⟨le_rfl, hle⟩
      · obtain ⟨hx₁, hx₂⟩ := hall x hx
        exact ⟨by omega, hx₂⟩

/-- Each block ends before the next begins. -/
theorem pairwise (h : Tiles size start l stop) :
    l.Pairwise fun a b => a + size a ≤ b := by
  induction l generalizing start with
  | nil => exact .nil
  | cons b l ih =>
      obtain ⟨rfl, h⟩ := tiles_cons.mp h
      exact .cons (fun x hx => ((bounds h).2 x hx).1) (ih h)

/-- Exactly the addresses of the interval lie in a block. -/
theorem cover (h : Tiles size start l stop) (a : Nat) :
    start ≤ a ∧ a < stop ↔ ∃ x ∈ l, x ≤ a ∧ a < x + size x := by
  constructor
  · rintro ⟨hle, hlt⟩
    induction l generalizing start with
    | nil =>
        have heq : start = stop := h
        omega
    | cons b l ih =>
        obtain ⟨rfl, h⟩ := tiles_cons.mp h
        by_cases ha : a < start + size start
        · exact ⟨start, by simp, hle, ha⟩
        · obtain ⟨x, hx, hxa⟩ := ih h (by omega)
          exact ⟨x, List.mem_cons_of_mem _ hx, hxa⟩
  · rintro ⟨x, hx, hle, hlt⟩
    obtain ⟨hx₁, hx₂⟩ := h.bounds.2 x hx
    omega

/-- Behind each block comes the next one or the end. -/
theorem next_mem (h : Tiles size start l stop) {x : Nat} (hx : x ∈ l) :
    x + size x ∈ l ∨ x + size x = stop := by
  obtain ⟨l₁, l₂, rfl, -, hrest⟩ := Follows.split_mem h hx
  rcases hrest.start_mem with heq | hmem
  · exact .inr heq
  · exact .inl (by simp [hmem])

/-- Blocks of positive size lie at different addresses, in order. -/
theorem sorted (h : Tiles size start l stop) (hpos : ∀ x ∈ l, 0 < size x) :
    l.Pairwise (· < ·) := by
  apply h.pairwise.imp_of_mem
  intro a b ha _ hle
  have := hpos a ha
  omega

end Tiles

end Foundation
