import NickOS3.Lib.Calls

/-!
# The list refines a sequence

Along a run in which no call relies in vain on what the code leaves unset, every result is
the one of the sequence and the chain from the head is the list. `push` on an empty list
does not set the tail and writes its back link through the null head, so that the next
`append` leaves the chain behind.
-/

namespace NickOS3.Lib

open Foundation

/-- The forward chain from the head through as many elements as the size says, ending in
null at the tail, with back links, holding the sequence. -/
structure ListState.Chained (s : ListState) (nodes xs : List Nat) : Prop where
  next : Follows (fun a => (s.elems a).next) s.list.head nodes 0
  size : nodes.length = s.list.size
  tail : ∀ x, nodes.getLast? = some x → s.list.tail = x
  prev : Mirrors (fun a => (s.elems a).prev) 0 nodes
  data : nodes.map (fun a => (s.elems a).data) = xs

/-- The results agree with those of the sequence, and the list is the sequence. -/
def ListRun.Refines (r : ListRun) : Prop :=
  (∀ c ∈ r.results, c.1 = c.2) ∧
    ∀ xs, r.sequence = some xs → ∃ nodes, r.memory.Chained nodes xs

/-- What a call leaves unset is null already, and it does not go through a null head. -/
def ListCall.Linked (s : ListState) (a : ListCall) : Prop :=
  a.Relies s ∧ a.LinksBack

theorem ListRun.Sound.refines {r : ListRun} {nodes : List Nat} (h : r.Sound 0 nodes) :
    r.Refines := by
  refine ⟨h.results, ?_⟩
  intro xs hxs
  have hrep := h.represents xs hxs
  exact ⟨nodes, hrep.next, hrep.size.symm, hrep.tail, hrep.prev, hrep.data⟩

/-- In a run of linked calls the list refines its sequence, and every further linked call
that the sequence allows returns. -/
theorem refines_of_linked {r : ListRun}
    (run : listMachine.Reach (Guarded fun s a => a.Linked s) r) :
    r.Refines ∧ ∀ a : ListCall, a.Linked r.memory → a.Proper r.memory →
      (a.spec r.sequence).isSome → ∃ r', r.call a = some r' := by
  obtain ⟨p, nodes, h, hp⟩ := sound_of_reach (fun s a ha => ha.1) run
  obtain rfl := hp fun s a ha => ha.2
  refine ⟨h.refines, ?_⟩
  intro a ha hproper hspec
  obtain ⟨-, -, r', -, -, -, hcall, -⟩ := h.call hproper ha.1 hspec
  exact ⟨r', hcall⟩

/-- After a `push` on the empty list, the element that `append` adds is not reached from the
head. -/
theorem not_refines : ∃ r, listMachine.Reachable r ∧ ¬ r.Refines := by
  let s₁ := (blankMemory.call .listInit).get (by decide)
  let s₂ := (s₁.call (.push 5 ⟨100, ⟨0, 0, 0⟩⟩)).get (by decide)
  let s₃ := (s₂.call (.append 6 ⟨112, ⟨0, 0, 0⟩⟩)).get (by decide)
  have run₁ : listMachine.Reachable s₁ :=
    .step (a := .call .listInit) (.start blankMemory_start) trivial
      ⟨ListCall.proper_iff.mpr (by decide), (Option.some_get _).symm⟩
  have run₂ : listMachine.Reachable s₂ :=
    .step (a := .call (.push 5 ⟨100, ⟨0, 0, 0⟩⟩)) run₁ trivial
      ⟨ListCall.proper_iff.mpr (by decide), (Option.some_get _).symm⟩
  have run₃ : listMachine.Reachable s₃ :=
    .step (a := .call (.append 6 ⟨112, ⟨0, 0, 0⟩⟩)) run₂ trivial
      ⟨ListCall.proper_iff.mpr (by decide), (Option.some_get _).symm⟩
  refine ⟨s₃, run₃, ?_⟩
  rintro ⟨-, hchained⟩
  obtain ⟨nodes, h⟩ := hchained [5, 6] (by decide)
  have hsize : nodes.length = 2 := h.size.trans (by decide)
  have hwalk : Follows (fun a => (s₃.memory.elems a).next) s₃.memory.list.head [100, 0] 112 := by
    decide
  obtain ⟨-, hstop⟩ := h.next.unique hwalk hsize
  exact absurd hstop (by decide)

/-- An element appended and one pushed before it. -/
theorem refines_of_linked_run : ∃ r : ListRun, r.sequence = some [4, 5] ∧ r.Refines ∧
    ∃ r', r.call .pop = some r' := by
  let s₁ := (blankMemory.call .listInit).get (by decide)
  let s₂ := (s₁.call (.append 5 ⟨100, ⟨7, 8, 9⟩⟩)).get (by decide)
  let s₃ := (s₂.call (.push 4 ⟨112, ⟨7, 8, 0⟩⟩)).get (by decide)
  have run₁ : listMachine.Reach (Guarded fun s a => a.Linked s) s₁ :=
    .step (a := .call .listInit) (.start blankMemory_start) ⟨trivial, trivial⟩
      ⟨ListCall.proper_iff.mpr (by decide), (Option.some_get _).symm⟩
  have run₂ : listMachine.Reach (Guarded fun s a => a.Linked s) s₂ :=
    .step (a := .call (.append 5 ⟨100, ⟨7, 8, 9⟩⟩)) run₁ ⟨fun h => absurd rfl h, trivial⟩
      ⟨ListCall.proper_iff.mpr (by decide), (Option.some_get _).symm⟩
  have run₃ : listMachine.Reach (Guarded fun s a => a.Linked s) s₃ :=
    .step (a := .call (.push 4 ⟨112, ⟨7, 8, 0⟩⟩)) run₂
      ⟨(show s₂.memory.list.size ≠ 0 by decide), rfl⟩
      ⟨ListCall.proper_iff.mpr (by decide), (Option.some_get _).symm⟩
  obtain ⟨hrefines, hreturns⟩ := refines_of_linked run₃
  exact ⟨s₃, by decide, hrefines,
    hreturns .pop ⟨trivial, trivial⟩ (ListCall.proper_iff.mpr (by decide)) (by decide)⟩

end NickOS3.Lib
