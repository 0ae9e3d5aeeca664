import Mathlib.Data.List.Basic

/-!
# Waiting lines

A line is served from its front. Newcomers join at the end, and anybody may withdraw. Who
neither withdraws nor is served moves up by one place for everybody who is served.
-/

namespace Foundation

/-- A change of a waiting line. -/
inductive LineChange (Task : Type*)
  | join (t : Task)
  | withdraw (t : Task)
  | serve

namespace LineChange

variable {Task : Type*} [DecidableEq Task]

def apply (line : List Task) : LineChange Task → List Task
  | join t => line ++ [t]
  | withdraw t => line.erase t
  | serve => line.tail

/-- The line behind a sequence of changes. -/
def applyAll (line : List Task) (changes : List (LineChange Task)) : List Task :=
  changes.foldl apply line

/-- Who is served in a sequence of changes. -/
def served (line : List Task) : List (LineChange Task) → List Task
  | [] => []
  | c :: changes =>
      match c with
      | serve => line.head?.toList ++ served line.tail changes
      | _ => served (c.apply line) changes

/-- How often the line is served, with somebody in it or not. -/
def serves : List (LineChange Task) → Nat
  | [] => 0
  | serve :: changes => serves changes + 1
  | _ :: changes => serves changes

@[simp] theorem applyAll_cons (line : List Task) (c : LineChange Task)
    (changes : List (LineChange Task)) :
    applyAll line (c :: changes) = applyAll (c.apply line) changes := rfl

theorem idxOf_erase_le {t u : Task} (hne : t ≠ u) (line : List Task) :
    (line.erase u).idxOf t ≤ line.idxOf t := by
  induction line with
  | nil => simp
  | cons x rest ih =>
      by_cases hx : x = u
      · subst hx
        rw [List.erase_cons_head, List.idxOf_cons_ne _ (Ne.symm hne)]
        exact Nat.le_succ _
      · rw [List.erase_cons_tail (by simpa using hx)]
        by_cases ht : x = t
        · subst ht
          rw [List.idxOf_cons_self]
          exact Nat.zero_le _
        · rw [List.idxOf_cons_ne _ ht, List.idxOf_cons_ne _ ht]
          exact Nat.succ_le_succ ih

/-- One change: `t` is served, or it still stands in the line, no further behind. -/
theorem served_or_stays {t : Task} {line : List Task} (ht : t ∈ line) {c : LineChange Task}
    (hc : c ≠ withdraw t) :
    c = serve ∧ line.head? = some t ∨
      t ∈ c.apply line ∧ (c.apply line).idxOf t + serves [c] ≤ line.idxOf t := by
  cases c with
  | join u =>
      refine .inr ⟨List.mem_append_left _ ht, ?_⟩
      show (line ++ [u]).idxOf t + 0 ≤ line.idxOf t
      rw [List.idxOf_append_of_mem ht]
      exact Nat.le_refl _
  | withdraw u =>
      have hne : t ≠ u := fun h => hc (congrArg withdraw h.symm)
      exact .inr ⟨(List.mem_erase_of_ne hne).mpr ht, idxOf_erase_le hne line⟩
  | serve =>
      cases line with
      | nil => exact absurd ht List.not_mem_nil
      | cons x rest =>
          by_cases hx : x = t
          · exact .inl ⟨rfl, congrArg some hx⟩
          · refine .inr ⟨(List.mem_cons.mp ht).resolve_left (Ne.symm hx), ?_⟩
            rw [List.idxOf_cons_ne _ hx]
            exact Nat.le_refl _

/-- A sequence of changes: `t` is served, or it has moved up by as many places as the line has
been served. -/
theorem served_or_moves_up {t : Task} {line : List Task} (ht : t ∈ line)
    {changes : List (LineChange Task)} (hstay : withdraw t ∉ changes) :
    t ∈ served line changes ∨ t ∈ applyAll line changes ∧
      (applyAll line changes).idxOf t + serves changes ≤ line.idxOf t := by
  induction changes generalizing line with
  | nil => exact .inr ⟨ht, Nat.le_refl _⟩
  | cons c changes ih =>
      rw [List.mem_cons, not_or] at hstay
      rcases served_or_stays ht (Ne.symm hstay.1) with ⟨rfl, hhead⟩ | ⟨hmem, hle⟩
      · left
        show t ∈ line.head?.toList ++ served line.tail changes
        rw [hhead]
        exact List.mem_append_left _ (List.mem_singleton_self t)
      · have hserves : serves (c :: changes) = serves [c] + serves changes := by
          cases c <;> simp [serves, Nat.add_comm]
        rcases ih hmem hstay.2 with hserved | ⟨hmem', hle'⟩
        · left
          cases c with
          | serve => exact List.mem_append_right _ hserved
          | join u => exact hserved
          | withdraw u => exact hserved
        · refine .inr ⟨hmem', ?_⟩
          rw [applyAll_cons, hserves]
          omega

end LineChange

end Foundation
