import NickOS3.Heap.SegmentChain
import NickOS3.Heap.Ownership

/-!
# The loops of `malloc` end

The search along `nextFreeSegment` and the walk to the last segment end as long as the links
that the calls trust are current. A merge with the last segment leaves a back link in the
header at address 0; `malloc` follows it later and closes the free list into a circle.
-/

namespace NickOS3.Heap

open Foundation

/-- The loops of `malloc` end: the search for every size, the walk from where it ends, and both
in the call itself, where the walk runs behind `palloc_heap`, as long as its rounds stay in the
table of the pool and the last page of the address space is not asked for. -/
structure HeapState.Terminates (s : HeapState) : Prop where
  search : ∀ size, firstFit s.memory size s.firstFreeSegment ≠ none
  walk : ∀ size c, firstFit s.memory size s.firstFreeSegment = some c →
    lastSegment s.memory c ≠ none
  call : ∀ size < 4294967296, ∀ frames, frames.length + s.nextFreePageIndex < 1048576 →
    (∀ c, firstFit s.memory (roundSize size) s.firstFreeSegment = some c →
      s.memory.read c .memoryLength < roundSize size →
      s.StaysInTable (extensionPages (roundSize size)) frames) →
    malloc size frames s ≠ none

section Loops

variable {base size c : Nat} {s : HeapState} {chain loose : List Segment}

/-- A chain of headers is no longer than the loops may go on. -/
theorem Layout.length_le {top : Nat} (h : Layout base top chain loose) :
    chain.length ≤ loopBound := by
  have hlt : ∀ x ∈ chain.map (·.header), x < loopBound := by
    intro x hx
    obtain ⟨g, hg, rfl⟩ := List.mem_map.mp hx
    have hin := h.inside g (List.mem_append_left _ hg)
    have hfinish := g.header_lt_finish
    have htop := h.limit
    unfold loopBound
    omega
  have hlen := length_le_of_nodup_of_lt h.nodup hlt
  rwa [List.length_map] at hlen

/-- The search along the free list ends. -/
theorem Holds.firstFit_ends (h : Holds base s chain loose) :
    Heap.firstFit s.memory size s.firstFreeSegment ≠ none := by
  obtain ⟨l, g, hchain, hfree⟩ := h.layout.last
  have hlast : (frees chain).getLast? = some g.header :=
    getLast?_frees (by rw [hchain, List.getLast?_concat]) hfree
  have hne : frees chain ≠ [] := by
    intro hnil
    rw [hnil] at hlast
    cases hlast
  have hstop : ∀ x, (frees chain).getLast? = some x → skipSegment s.memory size x = none := by
    intro x hx
    obtain rfl := Option.some.inj (hlast.symm.trans hx)
    subst hchain
    rw [skipSegment, if_neg]
    exact fun hskip => hskip.2 (h.last_links hfree).2
  have hfuel : (frees chain).length ≤ loopBound := by
    have hle : (frees chain).length ≤ chain.length := by
      rw [frees, List.length_map]
      exact List.length_filter_le ..
    exact hle.trans h.layout.length_le
  have hgo : ∀ x y, skipSegment s.memory size x = some y →
      y = s.memory.read x .nextFreeSegment := by
    intro x y hxy
    rw [skipSegment] at hxy
    split at hxy
    · exact (Option.some.inj hxy).symm
    · cases hxy
  obtain ⟨c, -, -, -, hc, -⟩ := chase_follows h.freeChain hne hgo hstop hfuel
  rw [Heap.firstFit, hc]
  exact Option.some_ne_none c

/-- The walk from a segment of the chain ends. -/
theorem Holds.lastSegment_ends (h : Holds base s chain loose) {g : Segment} (hg : g ∈ chain) :
    lastSegment s.memory g.header ≠ none := by
  obtain ⟨l₁, l₂, rfl⟩ := List.append_of_mem hg
  have hnext := h.chained.next
  rw [List.map_append, List.map_cons] at hnext
  have hchain : Follows (s.memory.read · .nextSegment) g.header ((g :: l₂).map (·.header)) 0 :=
    ⟨rfl, (follows_append_cons.mp hnext).2⟩
  have hstop : ∀ x, ((g :: l₂).map (·.header)).getLast? = some x →
      followSegment s.memory x = none := by
    intro x hx
    rw [followSegment, if_neg]
    exact not_not_intro (hchain.next_getLast hx)
  have hgo : ∀ x y, followSegment s.memory x = some y → y = s.memory.read x .nextSegment := by
    intro x y hxy
    rw [followSegment] at hxy
    split at hxy
    · exact (Option.some.inj hxy).symm
    · cases hxy
  have hfuel : ((g :: l₂).map (·.header)).length ≤ loopBound := by
    have hlen := h.layout.length_le
    rw [List.length_append] at hlen
    rw [List.length_map]
    omega
  obtain ⟨c, -, -, -, hc, -⟩ := chase_follows hchain (by simp) hgo hstop hfuel
  rw [lastSegment, hc]
  exact Option.some_ne_none c

/-- What is written into new pages behind a segment does not touch its link, so the walk ends
at once. -/
theorem linkNewPages_ends {b : Nat} {m : Memory} (hnext : m.read c .nextSegment = 0)
    (hc : c + 24 ≤ b) (hblock : b + 24 ≤ 4294967296)
    (hrest : size % PGSIZE ≠ 0 →
      b ≤ u32 (b + headerSize + size) ∧ u32 (b + headerSize + size) + 24 ≤ 4294967296) :
    linkNewPages size c b m ≠ none := by
  rw [linkNewPages]
  by_cases hrem : size % PGSIZE > headerSize
  · rw [if_pos hrem, ne_eq, Option.map_eq_none_iff]
    obtain ⟨hrest, hrestFits⟩ := hrest (Nat.ne_of_gt (Nat.zero_lt_of_lt hrem))
    generalize u32 (b + headerSize + size) = d at hrest hrestFits
    have hkeep : ∀ (m : Memory) (x : Nat) (f : Field) (v : Nat), b ≤ x → x + 24 ≤ 4294967296 →
        (m.write x f v).read c .nextSegment = m.read c .nextSegment := by
      intro m x f v hx hfits
      rw [m.read_write (by omega) hfits (.inr (.inl (by omega))), if_neg]
      rintro ⟨rfl, -⟩
      omega
    rw [lastSegment, show loopBound = 4294967295 + 1 from rfl, chase_succ, followSegment, if_neg]
    · exact Option.some_ne_none c
    · simp only [hkeep _ d _ _ hrest hrestFits, hkeep _ b _ _ (Nat.le_refl b) hblock, hnext]
      exact not_not_intro rfl
  · rw [if_neg hrem]
    exact Option.some_ne_none _

/-- The segment left over from new pages starts in them. -/
theorem leftover_in_pages {b : Nat} (hrem : size % PGSIZE ≠ 0)
    (hb : b + (extensionPages size + 1) * PGSIZE ≤ 4294967296) :
    b ≤ u32 (b + headerSize + size) ∧ u32 (b + headerSize + size) + 24 ≤ 4294967296 := by
  rw [extensionPages, if_pos hrem] at hb
  simp only [u32, headerSize, PGSIZE] at *
  omega

/-- `malloc` returns. -/
theorem Holds.malloc_ends {frames : List Frame} (h : Holds base s chain loose)
    (hsize : size < 4294967296)
    (hframes : frames.length + s.nextFreePageIndex < 1048576) :
    Heap.malloc size frames s ≠ none := by
  obtain ⟨hle, h8⟩ := roundSize_bound hsize
  rw [Heap.malloc]
  generalize roundSize size = size at hle h8
  cases hfit : Heap.firstFit s.memory size s.firstFreeSegment with
  | none => exact absurd hfit h.firstFit_ends
  | some c =>
      dsimp only
      split
      · rename_i hsmall
        obtain ⟨g, l₁, l₂, rfl, hfree, rfl, hlast⟩ := h.firstFit hfit
        obtain rfl := hlast hsmall
        obtain ⟨hnext, -⟩ := h.last_links hfree
        have hin := h.layout.inside g (by simp)
        have hfinish := g.header_add_le_finish
        have hpos := extensionPages_pos h8 (by omega) hle
        obtain ⟨pages, hmaps, hpages, hres⟩ :=
          @pallocHeap_spec _ frames s hpos (by omega)
        rw [mallocExtend]
        generalize pallocHeap (extensionPages size) frames s = res at hmaps hres
        obtain ⟨s₁, b⟩ := res
        dsimp only at hmaps hres ⊢
        split
        · exact Option.some_ne_none _
        · rename_i hb
          obtain ⟨rfl, rfl⟩ := hres.resolve_right fun hno => hb hno.1
          have hread : s₁.memory.read g.header .nextSegment = 0 := by
            rw [hmaps.read (hfinish.trans hin.2) h.layout.limit]
            exact hnext
          have htop : s.nextFreePageIndex * PGSIZE + (extensionPages size + 1) * PGSIZE ≤
              4294967296 := by
            unfold PGSIZE
            omega
          rw [ne_eq, Option.map_eq_none_iff]
          apply linkNewPages_ends hread (hfinish.trans hin.2)
          · rw [PGSIZE] at htop ⊢
            omega
          · exact fun hrem => leftover_in_pages hrem htop
      · exact Option.some_ne_none _

theorem Holds.terminates (h : Holds base s chain loose) : s.Terminates := by
  refine ⟨fun size => h.firstFit_ends, ?_,
    fun size hsize frames hframes _ => h.malloc_ends hsize hframes⟩
  intro size c hfit
  obtain ⟨g, l₁, l₂, rfl, -, rfl, -⟩ := h.firstFit hfit
  exact h.lastSegment_ends (by simp)

end Loops

/-- A frame without any content. -/
def zeroFrame : Frame := fun _ => 0

end NickOS3.Heap
