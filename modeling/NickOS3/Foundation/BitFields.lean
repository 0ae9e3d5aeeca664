import Mathlib.Algebra.Order.Ring.Nat

/-!
# Bit fields

A field of a number is some of its binary digits. Setting one field leaves the others alone.
-/

namespace Foundation

/-- The `width` binary digits of `w` from `lo` on. -/
def field (lo width w : Nat) : Nat := w / 2 ^ lo % 2 ^ width

/-- Sets the `width` binary digits of `w` from `lo` on to those of `v`. -/
def setField (lo width v w : Nat) : Nat :=
  w % 2 ^ lo + 2 ^ lo * (v % 2 ^ width + 2 ^ width * (w / 2 ^ (lo + width)))

section Fields

variable {lo width lo' width' v w n : Nat}

theorem setField_mod (lo width v w : Nat) : setField lo width v w % 2 ^ lo = w % 2 ^ lo := by
  rw [setField, Nat.add_mul_mod_self_left, Nat.mod_mod]

theorem setField_div (lo width v w : Nat) :
    setField lo width v w / 2 ^ lo = v % 2 ^ width + 2 ^ width * (w / 2 ^ (lo + width)) := by
  have hlow : w % 2 ^ lo < 2 ^ lo := Nat.mod_lt _ (Nat.two_pow_pos lo)
  rw [setField, Nat.add_mul_div_left _ _ (Nat.two_pow_pos lo), Nat.div_eq_of_lt hlow, Nat.zero_add]

theorem setField_div_above (lo width v w : Nat) :
    setField lo width v w / 2 ^ (lo + width) = w / 2 ^ (lo + width) := by
  have hfield : v % 2 ^ width < 2 ^ width := Nat.mod_lt _ (Nat.two_pow_pos width)
  calc setField lo width v w / 2 ^ (lo + width)
      = setField lo width v w / 2 ^ lo / 2 ^ width := by rw [Nat.pow_add, Nat.div_div_eq_div_mul]
    _ = w / 2 ^ (lo + width) := by
        rw [setField_div, Nat.add_mul_div_left _ _ (Nat.two_pow_pos width),
          Nat.div_eq_of_lt hfield, Nat.zero_add]

/-- What has been set is read back. -/
theorem field_setField (lo width v w : Nat) :
    field lo width (setField lo width v w) = v % 2 ^ width := by
  rw [field, setField_div, Nat.add_mul_mod_self_left, Nat.mod_mod]

/-- A field below keeps its value. -/
theorem field_setField_below (h : lo' + width' ≤ lo) :
    field lo' width' (setField lo width v w) = field lo' width' w := by
  have hdvd : 2 ^ (lo' + width') ∣ 2 ^ lo := Nat.pow_dvd_pow 2 h
  have hmod : ∀ u : Nat, field lo' width' u = u % 2 ^ lo % 2 ^ (lo' + width') / 2 ^ lo' := by
    intro u
    rw [field, Nat.mod_mod_of_dvd u hdvd, Nat.pow_add, Nat.mod_mul_right_div_self]
  rw [hmod, hmod, setField_mod]

/-- A field above keeps its value. -/
theorem field_setField_above (h : lo + width ≤ lo') :
    field lo' width' (setField lo width v w) = field lo' width' w := by
  obtain ⟨k, rfl⟩ := Nat.exists_eq_add_of_le h
  have hdiv : ∀ u : Nat, u / 2 ^ (lo + width + k) = u / 2 ^ (lo + width) / 2 ^ k := by
    intro u
    rw [Nat.pow_add, Nat.div_div_eq_div_mul]
  rw [field, field, hdiv, hdiv, setField_div_above]

/-- A field in a number of `n` digits can be set in `n` digits. -/
theorem setField_lt (hw : w < 2 ^ n) (h : lo + width ≤ n) : setField lo width v w < 2 ^ n := by
  obtain ⟨k, rfl⟩ := Nat.exists_eq_add_of_le h
  rw [Nat.pow_add] at hw ⊢
  have habove : w / 2 ^ (lo + width) < 2 ^ k := Nat.div_lt_of_lt_mul hw
  rw [← setField_div_above lo width v w] at habove
  rw [Nat.mul_comm]
  exact Nat.lt_mul_of_div_lt habove (Nat.two_pow_pos (lo + width))

end Fields

end Foundation
