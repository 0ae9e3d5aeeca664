import NickOS3.Lib.Calls

/-!
# The list stays within its elements

Which addresses a call dereferences. Away from the calls that go through a null head, and
as long as a block that becomes the last element holds null where its forward link is left
unset, these are elements of the list and the new block.
-/

namespace NickOS3.Lib

open Foundation

/-- An element on the forward chain from the head, which has as many as the size says. -/
def ListState.IsElem (s : ListState) (x : Nat) : Prop :=
  ∃ nodes, Follows (fun a => (s.elems a).next) s.list.head nodes 0 ∧
    nodes.length = s.list.size ∧ x ∈ nodes

/-- The call returns and dereferences elements of the list and its new block, not null. -/
def ListRun.Local (r : ListRun) (a : ListCall) : Prop :=
  ∃ result memory, a.run r.memoryAt = some (result, memory) ∧ ∀ x ∈ memory.touched,
    x ≠ 0 ∧ ((r.sequence ≠ none ∧ r.memory.IsElem x) ∨ ∃ b, a.block = some b ∧ x = b.address)

/-- The call does not go through a null head, and the forward link that it leaves unset is
null already. -/
def ListCall.InBounds (s : ListState) (a : ListCall) : Prop :=
  a.Relies s ∧ ¬ a.ThroughNull s

/-- In a run of calls in bounds, every further call in bounds is local. -/
theorem local_of_inBounds {r : ListRun}
    (run : listMachine.Reach (Guarded fun s a => a.InBounds s) r) :
    ∀ a : ListCall, a.InBounds r.memory → a.Proper r.memory →
      (a.spec r.sequence).isSome → r.Local a := by
  obtain ⟨p, nodes, h, -⟩ := sound_of_reach (fun s a ha => ha.1) run
  intro a ha hproper hspec
  obtain ⟨result, memory, -, -, -, hrun, -, -, -, htouch⟩ := h.call hproper ha.1 hspec
  refine ⟨result, memory, hrun, ?_⟩
  intro x hx
  rcases htouch x hx with hmem | ⟨b, hb, rfl⟩ | ⟨-, hnull⟩
  · have hseq : r.sequence ≠ none := fun hnone => by
      rw [(h.fresh hnone).1] at hmem
      exact List.not_mem_nil hmem
    obtain ⟨xs, hxs⟩ := Option.ne_none_iff_exists'.mp hseq
    have hrep := h.represents xs hxs
    exact ⟨hrep.notNull hmem, .inl ⟨hseq, nodes, hrep.next, hrep.size.symm, hmem⟩⟩
  · exact ⟨(hproper b hb).notNull, .inr ⟨b, hb, rfl⟩⟩
  · exact absurd hnull ha.2

/-- `pop` of the only element writes its back link at the null address. -/
theorem not_local : ∃ r, listMachine.Reachable r ∧
    ∃ a : ListCall, a.Proper r.memory ∧ (a.spec r.sequence).isSome ∧ ¬ r.Local a := by
  let s₁ := (blankMemory.call .listInit).get (by decide)
  let s₂ := (s₁.call (.append 5 ⟨100, ⟨0, 0, 0⟩⟩)).get (by decide)
  have run₁ : listMachine.Reachable s₁ :=
    .step (a := .call .listInit) (.start blankMemory_start) trivial
      ⟨ListCall.proper_iff.mpr (by decide), (Option.some_get _).symm⟩
  have run₂ : listMachine.Reachable s₂ :=
    .step (a := .call (.append 5 ⟨100, ⟨0, 0, 0⟩⟩)) run₁ trivial
      ⟨ListCall.proper_iff.mpr (by decide), (Option.some_get _).symm⟩
  refine ⟨s₂, run₂, .pop, ListCall.proper_iff.mpr (by decide), by decide, ?_⟩
  rintro ⟨result, memory, hrun, hlocal⟩
  have htouched : (ListCall.pop.run s₂.memoryAt).map (fun c => c.2.touched) =
      some [100, 0, 100] := by
    decide
  rw [hrun] at htouched
  have htouched : memory.touched = [100, 0, 100] := Option.some.inj htouched
  have hnull : 0 ∈ memory.touched := by
    rw [htouched]
    simp
  exact (hlocal 0 hnull).1 rfl

/-- A second element appended, and the first taken off. -/
theorem local_of_inBounds_run : ∃ r : ListRun, r.sequence = some [5, 6] ∧ r.Local .pop := by
  let s₁ := (blankMemory.call .listInit).get (by decide)
  let s₂ := (s₁.call (.append 5 ⟨100, ⟨7, 8, 9⟩⟩)).get (by decide)
  let s₃ := (s₂.call (.append 6 ⟨112, ⟨7, 0, 9⟩⟩)).get (by decide)
  have run₁ : listMachine.Reach (Guarded fun s a => a.InBounds s) s₁ :=
    .step (a := .call .listInit) (.start blankMemory_start) ⟨trivial, id⟩
      ⟨ListCall.proper_iff.mpr (by decide), (Option.some_get _).symm⟩
  have run₂ : listMachine.Reach (Guarded fun s a => a.InBounds s) s₂ :=
    .step (a := .call (.append 5 ⟨100, ⟨7, 8, 9⟩⟩)) run₁ ⟨fun h => absurd rfl h, id⟩
      ⟨ListCall.proper_iff.mpr (by decide), (Option.some_get _).symm⟩
  have run₃ : listMachine.Reach (Guarded fun s a => a.InBounds s) s₃ :=
    .step (a := .call (.append 6 ⟨112, ⟨7, 0, 9⟩⟩)) run₂ ⟨fun _ => rfl, id⟩
      ⟨ListCall.proper_iff.mpr (by decide), (Option.some_get _).symm⟩
  have hsize : s₃.memory.list.size ≠ 1 := by decide
  exact ⟨s₃, by decide, local_of_inBounds run₃ .pop ⟨trivial, hsize⟩
    (ListCall.proper_iff.mpr (by decide)) (by decide)⟩

end NickOS3.Lib
