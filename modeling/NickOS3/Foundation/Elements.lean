import Mathlib.Data.List.Basic
import Mathlib.Data.List.Nodup
import Mathlib.Logic.Function.Basic

/-!
# Lists that allocate their elements

A family of lists. To append an entry allocates an element; to unlink one does not give it back.
The elements allocated are exactly those that are linked as long as nothing has been unlinked, and
not from then on.
-/

namespace Foundation

/-- What is done to one of the lists. -/
inductive ListOp (Name Data : Type*)
  | append (q : Name) (d : Data)
  | pop (q : Name)
  | remove (q : Name) (d : Data)

/-- An element, and its entry. -/
structure Elem (Data : Type*) where
  addr : Nat
  data : Data

/-- The elements of the lists, and how many have been allocated; they are numbered in that order. -/
structure Elements (Name Data : Type*) where
  linked : Name → List (Elem Data)
  allocated : Nat

section Lists

variable {Name Data : Type*} [DecidableEq Name] [DecidableEq Data]

/-- The list an operation is about. -/
def ListOp.list : ListOp Name Data → Name
  | .append q _ => q
  | .pop q => q
  | .remove q _ => q

/-- The entries of that list after the operation. -/
def ListOp.entries (l : List Data) : ListOp Name Data → List Data
  | .append _ d => l ++ [d]
  | .pop _ => l.tail
  | .remove _ d => l.erase d

/-- The entries of all lists after an operation. -/
def ListOp.apply (lists : Name → List Data) (op : ListOp Name Data) : Name → List Data :=
  Function.update lists op.list (op.entries (lists op.list))

/-- An operation that takes an element out of its list. -/
def ListOp.Unlinks (lists : Name → List Data) : ListOp Name Data → Prop
  | .append _ _ => False
  | .pop q => lists q ≠ []
  | .remove q d => d ∈ lists q

/-- None of the operations in turn unlinks an element. -/
def UnlinksNone (lists : Name → List Data) : List (ListOp Name Data) → Prop
  | [] => True
  | op :: ops => ¬ op.Unlinks lists ∧ UnlinksNone (op.apply lists) ops

/-- The elements of the list after the operation, with a new one at `fresh`. -/
def ListOp.elems (fresh : Nat) (l : List (Elem Data)) : ListOp Name Data → List (Elem Data)
  | .append _ d => l ++ [⟨fresh, d⟩]
  | .pop _ => l.tail
  | .remove _ d => l.eraseP fun e => e.data = d

/-- How many elements an operation allocates. -/
def ListOp.allocates : ListOp Name Data → Nat
  | .append _ _ => 1
  | _ => 0

namespace Elements

variable (s : Elements Name Data)

/-- The entries of the lists. -/
def lists (q : Name) : List Data := (s.linked q).map Elem.data

/-- An operation on the elements. -/
def apply (op : ListOp Name Data) : Elements Name Data where
  linked := Function.update s.linked op.list (op.elems s.allocated (s.linked op.list))
  allocated := s.allocated + op.allocates

def run (ops : List (ListOp Name Data)) : Elements Name Data := ops.foldl apply s

/-- An element of one of the lists. -/
def Linked (a : Nat) : Prop := ∃ q, ∃ e ∈ s.linked q, e.addr = a

/-- The allocated elements are exactly those that are linked. -/
def Exact : Prop := ∀ a, a < s.allocated ↔ s.Linked a

/-- An element that is allocated and in no list. -/
def Lost (a : Nat) : Prop := a < s.allocated ∧ ¬ s.Linked a

/-- The linked elements are allocated, and each is linked once. -/
structure Proper : Prop where
  allocated : ∀ q, ∀ e ∈ s.linked q, e.addr < s.allocated
  once : ∀ q, ((s.linked q).map Elem.addr).Nodup
  apart : ∀ q q', ∀ e ∈ s.linked q, ∀ e' ∈ s.linked q', e.addr = e'.addr → q = q'

variable {s} {op : ListOp Name Data} {ops : List (ListOp Name Data)} {q : Name} {e : Elem Data}
  {a : Nat}

theorem linked_apply_self :
    (s.apply op).linked op.list = op.elems s.allocated (s.linked op.list) :=
  Function.update_self ..

theorem linked_apply_of_ne (h : q ≠ op.list) : (s.apply op).linked q = s.linked q :=
  Function.update_of_ne h ..

omit [DecidableEq Name] in
/-- The entries follow the elements. -/
theorem map_elems (fresh : Nat) (l : List (Elem Data)) :
    (op.elems fresh l).map Elem.data = op.entries (l.map Elem.data) := by
  cases op with
  | append q d => rw [ListOp.elems, List.map_append, List.map_singleton, ListOp.entries]
  | pop q => rw [ListOp.elems, List.map_tail, ListOp.entries]
  | remove q d =>
      have hpred : (fun e : Elem Data => decide (e.data = d)) = (fun x => x == d) ∘ Elem.data := by
        funext e
        rw [Function.comp_apply, beq_eq_decide]
      rw [ListOp.elems, ListOp.entries, List.erase_eq_eraseP', List.eraseP_map, hpred]

theorem lists_apply : (s.apply op).lists = op.apply s.lists := by
  funext x
  by_cases hx : x = op.list
  · subst hx
    rw [lists, linked_apply_self, map_elems, ListOp.apply, Function.update_self, lists]
  · rw [lists, linked_apply_of_ne hx, ListOp.apply, Function.update_of_ne hx, lists]

theorem lists_run : (s.run ops).lists = ops.foldl ListOp.apply s.lists := by
  induction ops generalizing s with
  | nil => rfl
  | cons op ops ih =>
      rw [List.foldl_cons, ← lists_apply]
      exact ih

/-- An operation links no element but a new one. -/
theorem mem_apply (h : e ∈ (s.apply op).linked q) :
    e ∈ s.linked q ∨ ∃ d, op = .append q d ∧ e = ⟨s.allocated, d⟩ := by
  by_cases hq : q = op.list
  · subst hq
    rw [linked_apply_self] at h
    cases op with
    | append q d =>
        rcases List.mem_append.mp h with hold | hnew
        · exact .inl hold
        · exact .inr ⟨d, rfl, List.mem_singleton.mp hnew⟩
    | pop q => exact .inl (List.mem_of_mem_tail h)
    | remove q d => exact .inl (List.mem_of_mem_eraseP h)
  · rw [linked_apply_of_ne hq] at h
    exact .inl h

theorem allocated_le_apply : s.allocated ≤ (s.apply op).allocated := Nat.le_add_right _ _

theorem Proper.apply (h : s.Proper) : (s.apply op).Proper := by
  constructor
  · intro q e he
    rcases mem_apply he with hold | ⟨d, rfl, rfl⟩
    · exact Nat.lt_of_lt_of_le (h.allocated q e hold) allocated_le_apply
    · exact Nat.lt_succ_self _
  · intro q
    by_cases hq : q = op.list
    · subst hq
      have honce := h.once op.list
      rw [linked_apply_self]
      cases op with
      | append q d =>
          rw [ListOp.elems, List.map_append, List.map_singleton, List.nodup_append]
          refine ⟨honce, List.nodup_singleton _, ?_⟩
          intro a ha b hb heq
          obtain ⟨e, he, rfl⟩ := List.mem_map.mp ha
          have hlt := h.allocated q e he
          rw [heq, List.mem_singleton.mp hb] at hlt
          exact Nat.lt_irrefl _ hlt
      | pop q =>
          rw [ListOp.elems, List.map_tail]
          exact honce.tail
      | remove q d => exact honce.sublist (List.eraseP_sublist.map _)
    · rw [linked_apply_of_ne hq]
      exact h.once q
  · intro q q' e he e' he' heq
    rcases mem_apply he with hold | ⟨d, hop, rfl⟩
    · rcases mem_apply he' with hold' | ⟨_, _, rfl⟩
      · exact h.apart q q' e hold e' hold' heq
      · exact absurd heq (Nat.ne_of_lt (h.allocated q e hold))
    · rcases mem_apply he' with hold' | ⟨d', hop', _⟩
      · exact absurd heq.symm (Nat.ne_of_lt (h.allocated q' e' hold'))
      · cases hop.symm.trans hop'
        rfl

theorem Proper.run (h : s.Proper) : (s.run ops).Proper := by
  induction ops generalizing s with
  | nil => exact h
  | cons op ops ih => exact ih h.apply

/-- A lost element stays lost: what is appended is new. -/
theorem Lost.apply (h : s.Lost a) : (s.apply op).Lost a := by
  refine ⟨Nat.lt_of_lt_of_le h.1 allocated_le_apply, ?_⟩
  rintro ⟨q, e, he, rfl⟩
  rcases mem_apply he with hold | ⟨d, _, rfl⟩
  · exact h.2 ⟨q, e, hold, rfl⟩
  · exact Nat.lt_irrefl _ h.1

theorem Lost.run (h : s.Lost a) : (s.run ops).Lost a := by
  induction ops generalizing s with
  | nil => exact h
  | cons op ops ih => exact ih h.apply

omit [DecidableEq Name] [DecidableEq Data] in
theorem Lost.not_exact (h : s.Lost a) : ¬ s.Exact := fun hexact => h.2 ((hexact a).mp h.1)

omit [DecidableEq Name] in
/-- An operation that unlinks takes one element out of its list. -/
theorem unlinks_elem (h : op.Unlinks s.lists) (fresh : Nat) :
    ∃ before e behind, s.linked op.list = before ++ e :: behind ∧
      op.elems fresh (s.linked op.list) = before ++ behind := by
  cases op with
  | append q d => exact h.elim
  | pop q =>
      cases hlist : s.linked q with
      | nil => exact absurd (by rw [lists, hlist, List.map_nil]) h
      | cons e rest => exact ⟨[], e, rest, hlist, by rw [ListOp.elems, ListOp.list, hlist]; rfl⟩
  | remove q d =>
      obtain ⟨e, he, hd⟩ := List.mem_map.mp h
      obtain ⟨e', before, behind, _, _, hlist, herase⟩ :=
        List.exists_of_eraseP (p := fun e => decide (e.data = d)) he (decide_eq_true hd)
      exact ⟨before, e', behind, hlist, herase⟩

/-- That element is lost. -/
theorem Proper.lost (h : s.Proper) (hop : op.Unlinks s.lists) : ∃ a, (s.apply op).Lost a := by
  obtain ⟨before, e, behind, hlist, hrest⟩ := unlinks_elem hop s.allocated
  have he : e ∈ s.linked op.list := by simp [hlist]
  have honce := h.once op.list
  rw [hlist, List.map_append, List.map_cons, List.nodup_middle, List.nodup_cons,
    ← List.map_append] at honce
  refine ⟨e.addr, Nat.lt_of_lt_of_le (h.allocated _ e he) allocated_le_apply, ?_⟩
  rintro ⟨q, e', he', heq⟩
  by_cases hq : q = op.list
  · subst hq
    rw [linked_apply_self, hrest] at he'
    exact honce.1 (heq ▸ List.mem_map_of_mem he')
  · rw [linked_apply_of_ne hq] at he'
    exact hq (h.apart q _ e' he' e he heq)

/-- What unlinks nothing keeps the elements exact. -/
theorem Exact.apply (h : s.Exact) (hop : ¬ op.Unlinks s.lists) : (s.apply op).Exact := by
  have hsame : op.elems s.allocated (s.linked op.list) = s.linked op.list → op.allocates = 0 →
      (s.apply op).Exact := by
    intro helems hzero
    rwa [Elements.apply, helems, hzero, Function.update_eq_self]
  cases op with
  | append q d =>
      intro a
      constructor
      · intro ha
        by_cases heq : a = s.allocated
        · exact ⟨q, ⟨a, d⟩, by simp [Elements.apply, ListOp.list, ListOp.elems, heq], rfl⟩
        · have hlt : a < s.allocated + 1 := ha
          obtain ⟨x, e, he, rfl⟩ := (h a).mp (by omega)
          refine ⟨x, e, ?_, rfl⟩
          by_cases hx : x = q
          · subst hx
            have hself : (s.apply (.append x d)).linked x = s.linked x ++ [⟨s.allocated, d⟩] :=
              linked_apply_self
            rw [hself]
            exact List.mem_append_left _ he
          · rw [linked_apply_of_ne hx]
            exact he
      · rintro ⟨x, e, he, rfl⟩
        rcases mem_apply he with hold | ⟨_, _, rfl⟩
        · exact Nat.lt_succ_of_lt ((h e.addr).mpr ⟨x, e, hold, rfl⟩)
        · exact Nat.lt_succ_self _
  | pop q =>
      have hempty : s.linked q = [] := List.map_eq_nil_iff.mp (not_not.mp hop)
      exact hsame (by rw [ListOp.elems, ListOp.list, hempty, List.tail_nil]) rfl
  | remove q d =>
      have habsent : ∀ e ∈ s.linked q, ¬ decide (e.data = d) = true :=
        fun e he hd => hop (List.mem_map.mpr ⟨e, he, of_decide_eq_true hd⟩)
      exact hsame (List.eraseP_of_forall_not habsent) rfl

/-- After a sequence of operations the elements are exact just where none of them has unlinked
one. -/
theorem exact_run_iff (h : s.Proper) (hexact : s.Exact) :
    (s.run ops).Exact ↔ UnlinksNone s.lists ops := by
  induction ops generalizing s with
  | nil => exact iff_of_true hexact trivial
  | cons op ops ih =>
      by_cases hop : op.Unlinks s.lists
      · obtain ⟨a, ha⟩ := h.lost hop
        exact iff_of_false (fun hrun => (Lost.run ha).not_exact hrun) fun hnone => hnone.1 hop
      · have hproper : (s.apply op).Proper := h.apply
        have hrest := ih hproper (hexact.apply hop)
        rw [lists_apply] at hrest
        exact hrest.trans ⟨fun hnone => ⟨hop, hnone⟩, fun hnone => hnone.2⟩

/-- Elements that are not exact do not become so again. -/
theorem Proper.not_exact_run (h : s.Proper) (hexact : ¬ s.Exact) : ¬ (s.run ops).Exact := by
  rw [Exact, not_forall] at hexact
  obtain ⟨a, ha⟩ := hexact
  have hlost : s.Lost a := by
    by_cases hlinked : s.Linked a
    · obtain ⟨q, e, he, rfl⟩ := hlinked
      exact absurd (iff_of_true (h.allocated q e he) ⟨q, e, he, rfl⟩) ha
    · have hlt : a < s.allocated := by
        by_contra hle
        exact ha (iff_of_false hle hlinked)
      exact ⟨hlt, hlinked⟩
  exact hlost.run.not_exact

omit [DecidableEq Name] [DecidableEq Data] in
/-- Exact elements are as many as the lists have entries. -/
theorem Exact.allocated_eq_length (hexact : s.Exact) (h : s.Proper) {names : List Name}
    (hnames : names.Nodup) (hcover : ∀ q, q ∉ names → s.lists q = []) :
    s.allocated = (names.flatMap s.lists).length := by
  have hnodup : (names.flatMap fun q => (s.linked q).map Elem.addr).Nodup := by
    rw [List.nodup_flatMap]
    refine ⟨fun q _ => h.once q, hnames.imp ?_⟩
    intro q q' hne a ha ha'
    obtain ⟨e, he, rfl⟩ := List.mem_map.mp ha
    obtain ⟨e', he', heq⟩ := List.mem_map.mp ha'
    exact hne (h.apart q q' e he e' he' heq.symm)
  have hmem : ∀ a, a ∈ (names.flatMap fun q => (s.linked q).map Elem.addr) ↔
      a ∈ List.range s.allocated := by
    intro a
    rw [List.mem_range, hexact a, List.mem_flatMap]
    constructor
    · rintro ⟨q, _, ha⟩
      obtain ⟨e, he, rfl⟩ := List.mem_map.mp ha
      exact ⟨q, e, he, rfl⟩
    · rintro ⟨q, e, he, rfl⟩
      refine ⟨q, ?_, List.mem_map_of_mem he⟩
      by_contra hout
      have hempty : s.linked q = [] := List.map_eq_nil_iff.mp (hcover q hout)
      rw [hempty] at he
      exact List.not_mem_nil he
  have hlength := ((List.perm_ext_iff_of_nodup hnodup List.nodup_range).mpr hmem).length_eq
  rw [List.length_range] at hlength
  rw [← hlength, List.length_flatMap, List.length_flatMap]
  simp only [lists, List.length_map]

end Elements

end Lists

end Foundation
