import NickOS3.Heap.Current
import Mathlib.Data.Set.Lattice
import Mathlib.Order.CompletePartialOrder
import Mathlib.Order.Interval.Set.Basic

/-!
# Exclusive ownership of heap blocks

The payloads of live blocks do not overlap each other, nor the headers that the free
list leads to. The allocator keeps this as long as the links it reads are current, and
loses it when one is stale: a freed segment keeps the links it had when it was
allocated, and the search takes a block wherever they lead.
-/

namespace NickOS3.Heap

open Foundation

/-- The bytes of a block: the pointer returned and the size asked for. -/
def payload (b : Nat × Nat) : Set Nat := Set.Ico b.1 (b.1 + b.2)

/-- No live block is handed out twice, and the payloads of live blocks overlap neither
each other nor a header on the free list. -/
structure Exclusive (r : HeapRun) : Prop where
  distinct : (r.live.map Prod.fst).Nodup
  disjoint : r.live.Pairwise fun b c => Disjoint (payload b) (payload c)
  headers : ∀ b ∈ r.live, ∀ x, r.heap.OnFreeList x →
    Disjoint (payload b) (Set.Ico x (x + headerSize))

variable {base : Nat} {r : HeapRun} {chain loose : List Segment}

theorem disjoint_Ico_of_clear {a b c d : Nat} (h : b ≤ c ∨ d ≤ a) :
    Disjoint (Set.Ico a b) (Set.Ico c d) := by
  rw [Set.disjoint_left]
  rintro x ⟨hax, hxb⟩ ⟨hcx, hxd⟩
  rcases h with hle | hle <;> omega

/-- Segments of their own keep live blocks apart. -/
theorem Owned.exclusive (h : Owned base r chain loose) : Exclusive r := by
  constructor
  · exact h.distinct
  · have hpairs : r.live.Pairwise fun b c => b.1 ≠ c.1 := List.pairwise_map.mp h.distinct
    apply hpairs.imp_of_mem
    intro b c hb hc hne
    obtain ⟨g, hg, -, hbg, hgsize⟩ := h.live b hb
    obtain ⟨k, hk, -, hck, hksize⟩ := h.live c hc
    have hclear := h.holds.layout.clear_of_ne hg hk (by rintro rfl; omega)
    apply disjoint_Ico_of_clear
    simp only [Segment.Clear, Segment.finish] at hclear
    rcases hclear with hlt | hlt <;> omega
  · intro b hb x hx
    obtain ⟨g, hg, hlive, hbg, hgsize⟩ := h.live b hb
    obtain ⟨k, hk, hfree, rfl⟩ := mem_frees.mp (h.holds.onFreeList_iff.mp hx)
    have hclear := h.holds.layout.clear_of_ne hg (List.mem_append_left _ hk) (by
      rintro rfl
      simp [hlive] at hfree)
    apply disjoint_Ico_of_clear
    simp only [Segment.Clear, Segment.finish, headerSize] at hclear hbg ⊢
    rcases hclear with hlt | hlt <;> omega

/-- One block of 8 bytes taken from the first page. -/
def oneBlock : HeapRun := ((blankHeap 0 1).call (.malloc 8 [])).get (by decide)

/-- Two blocks of 8 bytes taken from the first page. -/
def twoBlocks : HeapRun := (oneBlock.call (.malloc 8 [])).get (by decide)

/-- Calls of `malloc` with current links take the two blocks. -/
theorem twoBlocks_reach {allowed : HeapRun → HeapCall → Prop}
    (hallowed : ∀ r size frames, (HeapCall.malloc size frames).Current 0 r →
      allowed r (.malloc size frames)) : (heapMachine 0 1).Reach allowed twoBlocks := by
  have run₁ : (heapMachine 0 1).Reach allowed oneBlock := by
    refine .step (a := .malloc 8 []) (.start (blankHeap_start (by decide)))
      (hallowed _ _ _ ⟨by decide, ?_⟩) ⟨by decide, (Option.some_get _).symm⟩
    intro c hc
    have hfit : firstFit (blankHeap 0 1).heap.memory (roundSize 8)
        (blankHeap 0 1).heap.firstFreeSegment = some 0 := by decide
    obtain rfl := Option.some.inj (hfit.symm.trans hc)
    rw [if_neg (by decide)]
    exact ⟨by decide, fun _ => by decide, fun h => absurd rfl h, .inl (by decide)⟩
  refine .step (a := .malloc 8 []) run₁ (hallowed _ _ _ ⟨by decide, ?_⟩)
    ⟨by decide, (Option.some_get _).symm⟩
  intro c hc
  have hfit : firstFit oneBlock.heap.memory (roundSize 8) oneBlock.heap.firstFreeSegment =
      some 32 := by decide
  obtain rfl := Option.some.inj (hfit.symm.trans hc)
  rw [if_neg (by decide)]
  exact ⟨by decide, fun _ => by decide, fun h => absurd (by decide) h, .inl (by decide)⟩

/-- The links of the second block are current. -/
theorem twoBlocks_current : (HeapCall.free 56).Current 0 twoBlocks := by
  have hheader : headerOf 56 = 32 := by decide
  have hsegment : ∀ x, twoBlocks.heap.IsSegment 0 x ↔ x ∈ [0, 32, 64] := by
    intro x
    apply Follows.visits_iff
    · decide
    · simp
    · simp
  have hlive : twoBlocks.live = [(56, 8), (24, 8)] := by decide
  change twoBlocks.CurrentFree 0 (headerOf 56)
  rw [hheader]
  constructor
  · exact (hsegment 32).mpr (by simp)
  · decide
  · refine .inr ⟨by decide, by decide, ?_⟩
    intro x hx
    have hx : x ∈ [0, 32, 64] := by
      rcases hx with hx | hx
      · exact (hsegment x).mp hx
      · simp only [hlive, headerSize, List.map_cons, List.map_nil, List.mem_cons,
          List.not_mem_nil, or_false] at hx ⊢
        omega
    have hall : ∀ x ∈ [0, 32, 64], x = twoBlocks.heap.memory.read 32 .nextFreeSegment ∨
        Apart x (twoBlocks.heap.memory.read 32 .nextFreeSegment) := by decide
    exact hall x hx
  · exact .inl ⟨by decide, by decide⟩
  · exact fun _ => .inl (by decide)
  · exact fun h => absurd (by decide) h
  · exact .inr ⟨(hsegment _).mpr (by decide), by decide, by decide⟩
  · exact fun _ h => absurd (by decide) h

/-- A run in which two blocks are taken from the first page and the second is given back. -/
theorem exists_current_run : ∃ r, (heapMachine 0 1).Reach (fun r a => a.Current 0 r) r ∧
    r.live = [(24, 8)] := by
  refine ⟨(twoBlocks.call (.free 56)).get (by decide), ?_, by decide⟩
  exact .step (a := .free 56) (twoBlocks_reach fun _ _ _ h => h) twoBlocks_current
    ⟨trivial, (Option.some_get _).symm⟩

end NickOS3.Heap
