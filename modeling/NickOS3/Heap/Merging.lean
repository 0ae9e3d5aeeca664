import NickOS3.Heap.Current
import Mathlib.Data.List.Chain

/-!
# Merging freed segments

The layout after `free`, with the free neighbours that the segment is merged with, the
headers that are written on the way and what they are left with. The null tests of
`CombineFreeSegments` leave a segment at address 0 as it is.
-/

namespace NickOS3.Heap

open Foundation

section Spaced

variable {base top : Nat} {l l₁ l₂ chain loose : List Segment} {c g k : Segment}

/-- No free segment of the chain ends where the next one, if it is free, begins. -/
def Spaced (chain : List Segment) : Prop :=
  chain.IsChain fun g k => g.free = true → k.free = true → g.finish ≠ k.header

/-- A segment may be exchanged for parts of it, if only the last part may be free. -/
theorem Spaced.split {size : Nat} (h : Spaced (l₁ ++ c :: l₂)) (hfree : c.free = true)
    (hsize : size + 24 ≤ c.size) : Spaced (l₁ ++ c.take size :: c.rest size :: l₂) := by
  rw [Spaced, List.isChain_append, List.isChain_cons] at h
  rw [Spaced, List.isChain_append, List.isChain_cons, List.isChain_cons]
  obtain ⟨hbefore, ⟨hnext, hafter⟩, -⟩ := h
  refine ⟨hbefore, ⟨?_, ?_, hafter⟩, ?_⟩
  · intro y _ hlive
    exact absurd hlive (by simp)
  · intro y hy _ hyfree
    rw [Segment.rest_finish hsize]
    exact hnext y hy hfree hyfree
  · intro x _ y hy _ hyfree
    obtain rfl := Option.some.inj hy
    exact absurd hyfree (by simp)

/-- New pages begin with a live block. -/
theorem Spaced.extend {b size : Nat} (h : Spaced l) :
    Spaced (l ++ [newBlock b size, leftover b size]) := by
  rw [Spaced, List.isChain_append]
  refine ⟨h, ?_, ?_⟩
  · rw [List.isChain_pair]
    exact fun hlive => absurd hlive (by simp [newBlock])
  · intro x _ y hy _ hyfree
    obtain rfl := Option.some.inj hy
    exact absurd hyfree (by simp [newBlock])

/-- Freeing a segment merges it with a free one behind it. -/
theorem Spaced.release_next (h : Spaced (c :: l₂)) {m m' : Memory} {y : Nat} {c' : Segment}
    {l₂' : List Segment} (hmerged : NextMerged m m' y l₁ c.release l₂ c' l₂')
    (h0 : ∀ g, l₂.head? = some g → g.free = true → c.header ≠ 0) : Spaced (c' :: l₂') := by
  rw [Spaced, List.isChain_cons] at h ⊢
  cases hmerged with
  | @keep g l₂ hkept _ _ =>
      refine ⟨?_, h.2⟩
      intro k hk _ hkfree
      obtain rfl := Option.some.inj hk
      exact absurd ⟨hkfree, h0 g rfl hkfree⟩ hkept
  | @merge g l₂ hfree _ hadj _ =>
      obtain ⟨-, hrest⟩ := h
      rw [List.isChain_cons] at hrest
      refine ⟨?_, hrest.2⟩
      intro k hk _ hkfree
      rw [Segment.absorb_finish hadj]
      exact hrest.1 k hk hfree hkfree

/-- Freeing a segment merges it with a free one before it. -/
theorem Spaced.release_previous (hbefore : Spaced l₁) (h : Spaced (c :: l₂)) (hfree : c.free = true)
    {m m' : Memory} (hmerged : PreviousMerged m m' l₁ c l₂ chain)
    (hlinked : ∀ k, l₁.getLast? = some k → k.free = true → k.finish = c.header →
      k.header ≠ 0 ∧ m.read c.header .previousSegment = k.header) : Spaced chain := by
  cases hmerged with
  | keep hkept _ =>
      rw [Spaced, List.isChain_append]
      refine ⟨hbefore, h, ?_⟩
      intro k hk y hy hkfree _ hadj
      obtain rfl := Option.some.inj hy
      obtain ⟨h0, hps⟩ := hlinked k hk hkfree hadj
      exact h0 (hkept k hk hkfree hps)
  | @merge l₁ _ k _ hkfree hadj _ =>
      rw [Spaced, List.isChain_append] at hbefore ⊢
      rw [Spaced, List.isChain_cons] at h
      obtain ⟨hbefore, -, hlast⟩ := hbefore
      refine ⟨hbefore, List.isChain_cons.mpr ⟨?_, h.2⟩, ?_⟩
      · intro y hy _ hyfree
        rw [Segment.absorb_finish hadj]
        exact h.1 y hy hfree hyfree
      · intro x hx y hy hxfree _
        obtain rfl := Option.some.inj hy
        exact hlast x hx k rfl hxfree hkfree

/-- Of two segments of a layout one ends where the other begins only if they are neighbours. -/
theorem Layout.spaced_iff (h : Layout base top chain loose) :
    Spaced chain ↔ ∀ g ∈ chain, ∀ k ∈ chain, g.free = true → k.free = true →
      g.finish ≠ k.header := by
  constructor
  · intro hspaced g hg k hk hgfree hkfree hadj
    obtain ⟨l₁, l₂, rfl⟩ := List.append_of_mem hg
    have hgk : g.header < k.header := g.header_lt_finish.trans_eq hadj
    have hlt := h.header_lt_of_mem
    rw [List.mem_append, List.mem_cons] at hk
    rcases hk with hk | rfl | hk
    · have := hlt.1 k hk
      omega
    · omega
    · cases l₂ with
      | nil => simp at hk
      | cons e l₂ =>
          rw [Spaced, List.isChain_append, List.isChain_cons] at hspaced
          rcases List.mem_cons.mp hk with rfl | hk
          · exact hspaced.2.1.1 k rfl hgfree hkfree hadj
          · -- a segment between the two would overlap one of them
            have he := hlt.2 e (by simp)
            have hclear := h.clear_of_ne (g := g) (k := e) (by simp) (by simp)
              (by rintro rfl; omega)
            have hek : e.header < k.header := by
              have hsorted := h.sorted
              rw [List.pairwise_append, List.pairwise_cons, List.pairwise_cons] at hsorted
              exact hsorted.2.1.2.1 k hk
            have hfin := e.header_lt_finish
            rcases hclear with hclear | hclear <;> omega
  · intro hall
    rw [Spaced, List.isChain_iff_forall_rel_of_append_cons_cons]
    intro g k l₁ l₂ heq
    subst heq
    exact hall g (by simp) k (by simp)

end Spaced

section Tracks

variable {m m' : Memory}

/-- Memory differs only in the headers that were written. -/
def Memory.Tracks (m m' : Memory) : Prop :=
  ∀ a, m'.words a = m.words a ∨ ∃ x ∈ m'.written, ∃ f : Field, a = u32 (x + f.offset)

theorem Memory.Tracks.refl (m : Memory) : m.Tracks m := fun _ => .inl rfl

theorem Memory.Tracks.write (h : m.Tracks m') (a : Nat) (f : Field) (v : Nat) :
    m.Tracks (m'.write a f v) := by
  intro b
  by_cases hb : b = u32 (a + f.offset)
  · exact .inr ⟨a, List.mem_cons_self, f, hb⟩
  · rcases h b with heq | ⟨x, hx, e, he⟩
    · exact .inl ((Function.update_of_ne hb ..).trans heq)
    · exact .inr ⟨x, List.mem_cons_of_mem _ hx, e, he⟩

theorem Memory.Tracks.absorb (h : m.Tracks m') (a b : Nat) : m.Tracks (Heap.absorb a b m') := by
  unfold Heap.absorb
  exact (((((h.write _ _ _).write _ _ _).write _ _ _).write _ _ _).write _ _ _).write _ _ _

theorem Memory.Tracks.combineFreeSegments (h : m.Tracks m') (a b : Nat) :
    m.Tracks (Heap.combineFreeSegments a b m') := by
  unfold Heap.combineFreeSegments
  split_ifs
  · exact h
  · exact h
  · exact h.absorb a b
  · exact h.absorb b a

theorem Memory.Tracks.free {s : HeapState} (address : Nat) :
    s.memory.Tracks (Heap.free address s).memory := by
  rw [free_eq]
  generalize headerOf address = c
  have hflag : s.memory.Tracks (s.memory.write c .free 1) := (Memory.Tracks.refl _).write _ _ _
  have hnext : s.memory.Tracks (relinkNextFree c (s.memory.write c .free 1)) := by
    unfold relinkNextFree
    split_ifs
    · exact hflag.write _ _ _
    · exact hflag
    · exact hflag
  have hrelinked : s.memory.Tracks (relinked c s.memory) := by
    unfold relinked relinkPreviousFree
    split_ifs
    · exact hnext.write _ _ _
    · exact hnext
    · exact hnext
  have hmerged : s.memory.Tracks (Heap.mergeNext c (relinked c s.memory)) := by
    unfold Heap.mergeNext
    dsimp only
    split_ifs
    · exact (hrelinked.write _ _ _).combineFreeSegments _ _
    · exact hrelinked.write _ _ _
    · exact hrelinked
  unfold Heap.mergePrevious
  dsimp only
  split_ifs
  · exact (hmerged.write _ _ _).combineFreeSegments _ _
  · exact hmerged.write _ _ _
  · exact hmerged

end Tracks

section Writes

variable {base top first index : Nat} {s : HeapState} {m : Memory}
  {l₁ l₂ chain loose : List Segment} {a b c g k : Segment} {B : Set Nat}

/-- The address of the first header of a list, null when there is none. -/
theorem head?_getD_mem_headers {l : List Nat}
    (h : ∀ x ∈ l, ∃ k ∈ chain ++ loose, k.header = x) :
    l.head?.getD 0 ∈ Layout.headers chain loose := by
  cases l with
  | nil => exact .inl rfl
  | cons x l => exact .inr (h x (by simp))

/-- What one branch of `CombineFreeSegments` writes and what it leaves alone. -/
structure Absorbs (m m' : Memory) (a b : Segment) (others : List Segment) : Prop where
  length : ∀ k ∈ others, k.header ≠ a.header →
    m'.read k.header .memoryLength = m.read k.header .memoryLength
  flag : ∀ k ∈ others, m'.read k.header .free = m.read k.header .free
  writes : ∀ B : Set Nat, m.WritesIn B → a.header ∈ B → m.read b.header .nextSegment ∈ B →
    m.read b.header .nextFreeSegment ∈ B → m'.WritesIn B

theorem Layout.absorbs (h : Layout base top chain loose) (ha : a ∈ chain) (hb : b ∈ chain)
    (hab : a.header ≠ b.header)
    (hns : m.read b.header .nextSegment ∈ Layout.headers chain loose)
    (hnf : m.read b.header .nextFreeSegment ∈ Layout.headers chain loose) :
    Absorbs m (Heap.absorb a.header b.header m) a b (chain ++ loose) := by
  have hA := h.separated
  have haA : a.header ∈ Layout.headers chain loose := Layout.mem_headers_of_mem ha
  have hbA : b.header ∈ Layout.headers chain loose := Layout.mem_headers_of_mem hb
  constructor
  · intro k hk hka
    exact (absorb_read hA haA hbA hab hns hnf (Layout.mem_headers hk) .memoryLength).trans
      (if_neg hka)
  · intro k hk
    exact absorb_read hA haA hbA hab hns hnf (Layout.mem_headers hk) .free
  · intro B hB haB hnsB hnfB
    have hread := hA.read_write
    unfold Heap.absorb
    simp [hread, haA, hbA, hns, hab.symm, hB, haB, hnsB, hnfB]

/-- Up to the merges `free` writes the freed header and those of the free segments around it. -/
theorem Holds.relinked_writesIn (h : Holds base s (l₁ ++ c :: l₂) loose)
    (hlinks : FreeLinks s.memory l₁ c l₂ loose)
    (hnf : s.memory.read c.header .nextFreeSegment = 0 ∨
      (frees l₂).head? = some (s.memory.read c.header .nextFreeSegment))
    (hB : s.memory.WritesIn B) (hc : c.header ∈ B)
    (hbefore : ∀ x, (frees l₁).getLast? = some x → x ∈ B)
    (hbehind : ∀ x, (frees l₂).head? = some x → x ∈ B) :
    (relinked c.header s.memory).WritesIn B := by
  have hA := h.layout.separated
  have hmem : ∀ k ∈ l₁ ++ c :: l₂ ++ loose,
      k.header ∈ Layout.headers (l₁ ++ c :: l₂) loose := fun k hk => Layout.mem_headers hk
  have hcA := hmem c (by simp)
  have hread₀ := fun x (hx : x ∈ Layout.headers (l₁ ++ c :: l₂) loose) f =>
    hA.read_write s.memory hx hcA f .free 1
  have hnf₀ : (s.memory.write c.header .free 1).read c.header .nextFreeSegment =
      s.memory.read c.header .nextFreeSegment := by
    rw [hread₀ _ hcA, if_neg (by simp)]
  have hbeyond : ∀ x, (frees l₂).head? = some x → ∃ k ∈ l₂, k.header = x ∧ c.header < x := by
    intro x hx
    obtain ⟨k, hk, -, rfl⟩ := mem_frees.mp (List.mem_of_mem_head? hx)
    exact ⟨k, hk, rfl, h.layout.header_lt_of_mem.2 k hk⟩
  have hread₁ : ∀ x ∈ Layout.headers (l₁ ++ c :: l₂) loose, ∀ f,
      (relinkNextFree c.header (s.memory.write c.header .free 1)).read x f =
        if f = .previousFreeSegment ∧ x ≠ 0 ∧ x = s.memory.read c.header .nextFreeSegment ∧
          (s.memory.write c.header .free 1).read x .previousFreeSegment < c.header
        then c.header else (s.memory.write c.header .free 1).read x f := by
    intro x hx f
    rw [relinkNextFree_read hA _ hx, hnf₀]
    rw [hnf₀]
    rcases hnf with h0 | hhead
    · exact .inl h0
    · obtain ⟨k, hk, hkx, -⟩ := hbeyond _ hhead
      exact .inr (.inl (hkx ▸ hmem k (by simp [hk])))
  have hnextB : (relinkNextFree c.header (s.memory.write c.header .free 1)).WritesIn B := by
    have hflagB : (s.memory.write c.header .free 1).WritesIn B :=
      Memory.writesIn_write.mpr ⟨hc, hB⟩
    rw [relinkNextFree, hnf₀]
    split
    · rename_i hne
      exact Memory.WritesIn.ite hflagB fun _ => hbehind _ (hnf.resolve_left hne)
    · exact hflagB
  have hself : (relinkNextFree c.header (s.memory.write c.header .free 1)).read c.header
      .previousFreeSegment = s.memory.read c.header .previousFreeSegment := by
    rw [hread₁ _ hcA, if_neg, hread₀ _ hcA, if_neg (by simp)]
    rintro ⟨-, hc0, heq, -⟩
    rcases hnf with h0 | hhead
    · exact hc0 (heq.trans h0)
    · obtain ⟨-, -, -, hlt⟩ := hbeyond _ hhead
      omega
  rw [relinked, relinkPreviousFree, hself]
  split
  · rename_i hne
    apply Memory.WritesIn.ite hnextB
    intro hlt
    cases hl : (frees l₁).getLast? with
    | some x => exact (hlinks.free x hl).2 ▸ hbefore x hl
    | none =>
        exfalso
        rcases hlinks.noFree (List.getLast?_eq_none_iff.mp hl) with h0 | ⟨k, hk, hpf, hle⟩
        · exact hne h0
        · have hkA := hmem k (by
            rcases List.mem_append.mp hk with hk | hk
            · exact List.mem_append_left _ (mem_append_cons_of_mem hk)
            · exact List.mem_append_right _ hk)
          rw [hpf, hread₁ _ hkA, if_neg (by simp), hread₀ _ hkA, if_neg (by simp)] at hlt
          omega
  · exact hnextB

/-- A merge step keeps the lengths of `others` and all flags. -/
structure KeepsBlocks (m m' : Memory) (others all : List Segment) : Prop where
  length : ∀ k ∈ others, m'.read k.header .memoryLength = m.read k.header .memoryLength
  flag : ∀ k ∈ all, m'.read k.header .free = m.read k.header .free

/-- The addresses that a merge with the segments of `l` behind it writes to. -/
def behind (l : List Segment) : List Nat :=
  [(l.map (·.header)).head?.getD 0, (frees l).head?.getD 0]

theorem behind_mem_headers (hl : ∀ k ∈ l₂, k ∈ chain ++ loose) :
    ∀ x ∈ behind l₂, x ∈ Layout.headers chain loose := by
  intro x hx
  simp only [behind, List.mem_cons, List.not_mem_nil, or_false] at hx
  rcases hx with rfl | rfl
  · apply head?_getD_mem_headers
    intro y hy
    obtain ⟨k, hk, rfl⟩ := List.mem_map.mp hy
    exact ⟨k, hl k hk, rfl⟩
  · apply head?_getD_mem_headers
    intro y hy
    obtain ⟨k, hk, -, rfl⟩ := mem_frees.mp hy
    exact ⟨k, hl k hk, rfl⟩

theorem Holds.mergeNext_writes (h : Holds base s (l₁ ++ c :: g :: l₂) loose)
    (hlive : c.free = false) (hlinks : FreeLinks s.memory l₁ c (g :: l₂) loose) :
    KeepsBlocks (relinked c.header s.memory)
      (Heap.mergeNext c.header (relinked c.header s.memory)) (l₁ ++ g :: l₂ ++ loose)
      (l₁ ++ c :: g :: l₂ ++ loose) ∧
    ∀ B : Set Nat, (relinked c.header s.memory).WritesIn B → c.header ∈ B → g.header ∈ B →
      (g.free = true → c.header ≠ 0 → ∀ x ∈ behind l₂, x ∈ B) →
      (Heap.mergeNext c.header (relinked c.header s.memory)).WritesIn B := by
  have hchained := h.chained_relinked hlive hlinks
  have hlayout := h.layout.release
  have hmark := hchained.mark hlayout (h.free_before hlive hlinks) (h.free_after hlive hlinks)
  have heq := hchained.mergeNext_eq hlayout
  rw [Segment.release_header] at heq hmark
  rw [heq]
  generalize relinked c.header s.memory = m at hmark ⊢
  have hcg : c.header < g.header := h.layout.header_lt_of_mem.2 g (by simp)
  have hread := fun k (hk : k ∈ l₁ ++ c.release :: g :: l₂ ++ loose) f =>
    hlayout.read_write (g := g) (k := k) (by simp) hk m f .previousSegment c.header
  have hmem : ∀ k ∈ l₁ ++ c :: g :: l₂ ++ loose, ∃ k' ∈ l₁ ++ c.release :: g :: l₂ ++ loose,
      k'.header = k.header := by
    intro k hk
    simp only [List.mem_append, List.mem_cons] at hk
    rcases hk with (hk | rfl | hk) | hk
    · exact ⟨k, by simp [hk], rfl⟩
    · exact ⟨k.release, by simp, rfl⟩
    · exact ⟨k, List.mem_append_left _ (List.mem_append_right _ (by simpa using Or.inr hk)), rfl⟩
    · exact ⟨k, by simp [hk], rfl⟩
  have hmarked : ∀ k ∈ l₁ ++ c :: g :: l₂ ++ loose, ∀ f, f ≠ .previousSegment →
      (m.write g.header .previousSegment c.header).read k.header f = m.read k.header f := by
    intro k hk f hf
    obtain ⟨k', hk', hkk⟩ := hmem k hk
    rw [← hkk, hread k' hk', if_neg (fun hand => hf hand.2)]
  have hothers : ∀ k ∈ l₁ ++ g :: l₂ ++ loose, k ∈ l₁ ++ c :: g :: l₂ ++ loose := by
    intro k hk
    rcases List.mem_append.mp hk with hk | hk
    · exact List.mem_append_left _ (mem_append_cons_of_mem hk)
    · exact List.mem_append_right _ hk
  by_cases hcase : g.free = true ∧ c.header ≠ 0
  · have hsegments := hmark.chained.next
    rw [List.map_append, List.map_cons, List.map_cons, follows_append_cons] at hsegments
    have hns : (m.write g.header .previousSegment c.header).read g.header .nextSegment =
        (l₂.map (·.header)).head?.getD 0 := hsegments.2.2.eq_head?_getD
    have hafter := hmark.after
    rw [frees_cons_of_free hcase.1] at hafter
    have hnf : (m.write g.header .previousSegment c.header).read g.header .nextFreeSegment =
        (frees l₂).head?.getD 0 := hafter.2.eq_head?_getD
    have hbehind : ∀ x ∈ behind l₂, x ∈ Layout.headers (l₁ ++ c.release :: g :: l₂) loose := by
      apply behind_mem_headers
      intro k hk
      simp [hk]
    have habs := hlayout.absorbs (m := m.write g.header .previousSegment c.header)
      (a := c.release) (b := g) (by simp) (by simp) hcg.ne
      (hns ▸ hbehind _ (by simp [behind])) (hnf ▸ hbehind _ (by simp [behind]))
    rw [if_pos hcase]
    refine ⟨⟨?_, ?_⟩, ?_⟩
    · intro k hk
      obtain ⟨k', hk', hkk⟩ := hmem k (hothers k hk)
      have hne : k.header ≠ c.header := by
        have hparts : Layout base (s.nextFreePageIndex * PGSIZE) (l₁ ++ [c] ++ g :: l₂) loose := by
          simpa using h.layout
        exact hparts.header_ne hk (by simp)
      have hlen := habs.length k' hk' (by simpa [hkk] using hne)
      rw [hkk] at hlen
      exact hlen.trans (hmarked k (hothers k hk) _ (by decide))
    · intro k hk
      obtain ⟨k', hk', hkk⟩ := hmem k hk
      have hflag := habs.flag k' hk'
      rw [hkk] at hflag
      exact hflag.trans (hmarked k hk _ (by decide))
    · intro B hB hc hg hbehindB
      have hall := hbehindB hcase.1 hcase.2
      apply habs.writes B
      · exact Memory.writesIn_write.mpr ⟨hg, hB⟩
      · exact hc
      · exact hns ▸ hall _ (by simp [behind])
      · exact hnf ▸ hall _ (by simp [behind])
  · rw [if_neg hcase]
    refine ⟨⟨fun k hk => hmarked k (hothers k hk) _ (by decide),
      fun k hk => hmarked k hk _ (by decide)⟩, ?_⟩
    intro B hB _ hg _
    exact Memory.writesIn_write.mpr ⟨hg, hB⟩

theorem Holds.mergePrevious_writes (hc : c.free = true)
    (h : Holds base ⟨m, first, index⟩ (l₁ ++ c :: l₂) loose)
    (hsegment : m.read c.header .previousSegment = 0 ∨
      ∃ k, l₁.getLast? = some k ∧ m.read c.header .previousSegment = k.header) :
    KeepsBlocks m (Heap.mergePrevious c.header m)
      ((l₁ ++ l₂ ++ loose).filter fun k => !k.free) (l₁ ++ c :: l₂ ++ loose) ∧
    ∀ B : Set Nat, m.WritesIn B → (∀ k, l₁.getLast? = some k → k.header ∈ B) →
      (∀ x ∈ behind l₂, x ∈ B) → (Heap.mergePrevious c.header m).WritesIn B := by
  by_cases h0 : m.read c.header .previousSegment = 0
  · rw [Heap.mergePrevious, if_neg (not_not.mpr h0)]
    exact ⟨⟨fun _ _ => rfl, fun _ _ => rfl⟩, fun B hB _ _ => hB⟩
  · obtain ⟨k, hlast, hps⟩ := hsegment.resolve_left h0
    obtain ⟨l₀, rfl⟩ := List.getLast?_eq_some_iff.mp hlast
    rw [List.append_assoc, List.singleton_append] at h
    have hread := fun g hg f => h.read_next (g := g) hg f
    have hholds := h.congr hread
    rw [h.mergePrevious_eq hps (hps ▸ h0)]
    have hmem : ∀ e, e ∈ l₀ ++ [k] ++ c :: l₂ ++ loose → e ∈ l₀ ++ k :: c :: l₂ ++ loose := by
      intro e he
      simpa using he
    have hmemLive : ∀ e, e ∈ (l₀ ++ [k] ++ l₂ ++ loose).filter (fun k => !k.free) →
        e ∈ l₀ ++ k :: c :: l₂ ++ loose ∧ e.free = false := by
      intro e he
      obtain ⟨he, hlive⟩ := List.mem_filter.mp he
      refine ⟨?_, by simpa using hlive⟩
      rw [List.append_assoc l₀, List.singleton_append] at he
      rcases List.mem_append.mp he with he | he
      · rcases List.mem_append.mp he with he | he
        · exact List.mem_append_left _ (List.mem_append_left _ he)
        · exact List.mem_append_left _ (List.mem_append_right _
            (List.cons_subset_cons k (List.subset_cons_self c l₂) he))
      · exact List.mem_append_right _ he
    by_cases hfree : k.free = true
    · have hsegments := hholds.chained.next
      rw [List.map_append, List.map_cons, List.map_cons, follows_append_cons] at hsegments
      have hns : (m.write k.header .nextSegment c.header).read c.header .nextSegment =
          (l₂.map (·.header)).head?.getD 0 := hsegments.2.2.eq_head?_getD
      have hfreeChain := hholds.freeChain
      rw [frees_append, frees_cons_of_free hfree, frees_cons_of_free hc,
        follows_append_cons] at hfreeChain
      have hnf : (m.write k.header .nextSegment c.header).read c.header .nextFreeSegment =
          (frees l₂).head?.getD 0 := hfreeChain.2.2.eq_head?_getD
      have hbehind : ∀ x ∈ behind l₂, x ∈ Layout.headers (l₀ ++ k :: c :: l₂) loose := by
        apply behind_mem_headers
        intro e he
        simp [he]
      have hkc : k.header < c.header :=
        (List.pairwise_cons.mp (List.pairwise_append.mp h.layout.sorted).2.1).1 c (by simp)
      have habs := h.layout.absorbs (m := m.write k.header .nextSegment c.header)
        (a := k) (b := c) (by simp) (by simp) hkc.ne
        (hns ▸ hbehind _ (by simp [behind])) (hnf ▸ hbehind _ (by simp [behind]))
      rw [if_pos hfree]
      refine ⟨⟨?_, ?_⟩, ?_⟩
      · intro e he
        obtain ⟨he, hlive⟩ := hmemLive e he
        have hne : e.header ≠ k.header := by
          intro heq
          have hek := h.layout.header_injective he (by simp) heq
          rw [hek, hfree] at hlive
          exact absurd hlive (by decide)
        exact (habs.length e he hne).trans (hread e he _)
      · intro e he
        exact (habs.flag e (hmem e he)).trans (hread e (hmem e he) _)
      · intro B hB hk hbehindB
        have hkB := hk k hlast
        apply habs.writes B
        · exact Memory.writesIn_write.mpr ⟨hkB, hB⟩
        · exact hkB
        · exact hns ▸ hbehindB _ (by simp [behind])
        · exact hnf ▸ hbehindB _ (by simp [behind])
    · rw [if_neg hfree]
      refine ⟨⟨fun e he => hread e (hmemLive e he).1 _, fun e he => hread e (hmem e he) _⟩, ?_⟩
      intro B hB hk _
      exact Memory.writesIn_write.mpr ⟨hk k hlast, hB⟩

end Writes

section Release

variable {base : Nat} {s : HeapState} {m m' : Memory} {l₁ l₂ l₂' chain loose L R : List Segment}
  {c c' e : Segment}

/-- The links that a merge needs, in terms of the place of the freed segment in the layout. -/
structure MergeLinks (m : Memory) (l₁ : List Segment) (c : Segment) (l₂ : List Segment) :
    Prop where
  nextFree : m.read c.header .nextFreeSegment = 0 ∨
    (frees l₂).head? = some (m.read c.header .nextFreeSegment)
  previous : ∀ k, l₁.getLast? = some k → k.free = true → k.finish = c.header →
    k.header ≠ 0 ∧ m.read c.header .previousSegment = k.header
  next : ∀ g l, l₂ = g :: l → g.free = true →
    c.header ≠ 0 ∧ (l = [] → ∃ k, l₁.getLast? = some k ∧ k.header = 0)

/-- The freed segment `c` becomes the free segment `e`, alone or with its free neighbours. -/
structure FreedAs (l₁ : List Segment) (c : Segment) (l₂ L : List Segment) (e : Segment)
    (R : List Segment) : Prop where
  free : e.free = true
  before : L = l₁ ∧ e.header = c.header ∨
    ∃ k, l₁ = L ++ [k] ∧ k.free = true ∧ k.finish = c.header ∧ e.header = k.header
  behind : R = l₂ ∧ e.finish = c.finish ∨
    ∃ g, l₂ = g :: R ∧ g.free = true ∧ c.finish = g.header ∧ e.finish = g.finish

theorem FreedAs.header_le (h : FreedAs l₁ c l₂ L e R) : e.header ≤ c.header := by
  rcases h.before with ⟨-, heq⟩ | ⟨k, -, -, hadj, heq⟩
  · exact heq.le
  · have := k.header_lt_finish
    omega

theorem FreedAs.finish_le (h : FreedAs l₁ c l₂ L e R) : c.finish ≤ e.finish := by
  rcases h.behind with ⟨-, heq⟩ | ⟨g, -, -, hadj, heq⟩
  · exact heq.ge
  · have := g.header_lt_finish
    omega

theorem freedAs (hc : c'.header = c.header) {y : Nat} {m₁ m₂ m₃ : Memory}
    (hnext : NextMerged m₁ m₂ y l₁ c.release l₂ c' l₂')
    (hprevious : PreviousMerged m₂ m₃ l₁ c' l₂' chain) :
    ∃ L e, chain = L ++ e :: l₂' ∧ FreedAs l₁ c l₂ L e l₂' := by
  have hfree : c'.free = true := by
    cases hnext <;> rfl
  have hbehind : l₂' = l₂ ∧ c'.finish = c.finish ∨
      ∃ g, l₂ = g :: l₂' ∧ g.free = true ∧ c.finish = g.header ∧ c'.finish = g.finish := by
    cases hnext with
    | keep => exact .inl ⟨rfl, rfl⟩
    | @merge g _ hgfree _ hadj _ =>
        exact .inr ⟨g, rfl, hgfree, hadj, Segment.absorb_finish hadj⟩
  cases hprevious with
  | keep => exact ⟨l₁, c', rfl, hfree, .inl ⟨rfl, hc⟩, hbehind⟩
  | @merge L _ k _ hkfree hadj _ =>
      refine ⟨L, k.absorb c', rfl, rfl, .inr ⟨k, rfl, hkfree, hadj.trans hc, rfl⟩, ?_⟩
      rw [Segment.absorb_finish hadj]
      exact hbehind

/-- The byte at `a` belongs to a free segment. -/
def Covered (chain : List Segment) (a : Nat) : Prop :=
  ∃ k ∈ chain, k.free = true ∧ k.header ≤ a ∧ a < k.finish

theorem covered_append {a : Nat} : Covered (l₁ ++ l₂) a ↔ Covered l₁ a ∨ Covered l₂ a := by
  simp only [Covered, List.mem_append, or_and_right, exists_or]

theorem covered_cons {a : Nat} (hc : c.free = true) :
    Covered (c :: l₂) a ↔ c.header ≤ a ∧ a < c.finish ∨ Covered l₂ a := by
  simp [Covered, hc]

theorem covered_cons_of_live {a : Nat} (hc : c.free = false) :
    Covered (c :: l₂) a ↔ Covered l₂ a := by
  simp [Covered, hc]

/-- The free bytes grow by the bytes of the freed segment. -/
theorem FreedAs.covered (h : FreedAs l₁ c l₂ L e R) (a : Nat) :
    Covered (L ++ e :: R) a ↔ Covered (l₁ ++ l₂) a ∨ c.header ≤ a ∧ a < c.finish := by
  have hc := c.header_lt_finish
  rw [covered_append, covered_cons h.free, covered_append]
  have hbefore : (Covered L a ∨ e.header ≤ a ∧ a < c.finish) ↔
      Covered l₁ a ∨ c.header ≤ a ∧ a < c.finish := by
    rcases h.before with ⟨rfl, heq⟩ | ⟨k, rfl, hfree, hadj, heq⟩
    · rw [heq]
    · have hk := k.header_lt_finish
      rw [covered_append, covered_cons hfree, heq, or_assoc]
      have hempty : ¬ Covered [] a := by simp [Covered]
      apply or_congr_right
      simp only [hempty, or_false]
      omega
  have hbehind : (Covered R a ∨ c.header ≤ a ∧ a < e.finish) ↔
      Covered l₂ a ∨ c.header ≤ a ∧ a < c.finish := by
    rcases h.behind with ⟨rfl, heq⟩ | ⟨g, rfl, hfree, hadj, heq⟩
    · rw [heq]
    · have hg := g.header_lt_finish
      rw [covered_cons hfree, heq, or_comm, or_assoc, or_comm (b := c.header ≤ a ∧ a < c.finish),
        ← or_assoc]
      apply or_congr_left
      omega
  have hunion : e.header ≤ a ∧ a < e.finish ↔
      (e.header ≤ a ∧ a < c.finish) ∨ c.header ≤ a ∧ a < e.finish := by
    have hle := h.header_le
    have hfin := h.finish_le
    omega
  calc
    _ ↔ (Covered L a ∨ e.header ≤ a ∧ a < c.finish) ∨
        (Covered R a ∨ c.header ≤ a ∧ a < e.finish) := by
      rw [hunion]
      simp only [or_assoc, or_comm, or_left_comm]
    _ ↔ (Covered l₁ a ∨ c.header ≤ a ∧ a < c.finish) ∨
        (Covered l₂ a ∨ c.header ≤ a ∧ a < c.finish) := by
      rw [hbefore, hbehind]
    _ ↔ _ := by
      rw [or_or_or_comm, or_self]

/-- The headers around the freed segment, in the layout before and in the one after. -/
def beside (l₁ : List Segment) (c : Segment) (l₂ L : List Segment) (e : Segment)
    (R : List Segment) : Set Nat :=
  {x | x = c.header ∨ (∃ k, l₁.getLast? = some k ∧ k.header = x) ∨
    (∃ g, l₂.head? = some g ∧ g.header = x) ∨ x = e.header ∨
    (R.map (·.header)).head? = some x ∨ (frees R).head? = some x ∨ (frees L).getLast? = some x}

theorem FreedAs.frees_before_mem (h : FreedAs l₁ c l₂ L e R) {x : Nat}
    (hx : (frees l₁).getLast? = some x) : x ∈ beside l₁ c l₂ L e R := by
  rcases h.before with ⟨rfl, -⟩ | ⟨k, rfl, hfree, -, heq⟩
  · exact .inr (.inr (.inr (.inr (.inr (.inr hx)))))
  · rw [frees_append, frees_cons_of_free hfree, frees_nil, List.getLast?_concat] at hx
    exact .inr (.inr (.inr (.inl ((Option.some.inj hx).symm.trans heq.symm))))

theorem FreedAs.frees_behind_mem (h : FreedAs l₁ c l₂ L e R) {x : Nat}
    (hx : (frees l₂).head? = some x) : x ∈ beside l₁ c l₂ L e R := by
  rcases h.behind with ⟨rfl, -⟩ | ⟨g, rfl, hfree, -, -⟩
  · exact .inr (.inr (.inr (.inr (.inr (.inl hx)))))
  · rw [frees_cons_of_free hfree] at hx
    exact .inr (.inr (.inl ⟨g, rfl, Option.some.inj hx⟩))

/-- Behind the freed segment a merge writes to headers around it, also through null. -/
theorem FreedAs.behind_mem {top : Nat} (h : FreedAs l₁ c l₂ L e R)
    (hlayout : Layout base top (L ++ e :: R) loose) (hne : l₂ ≠ [])
    (hmerge : MergeLinks m l₁ c l₂) : ∀ x ∈ Heap.behind R, x ∈ beside l₁ c l₂ L e R := by
  have hnull : R = [] → 0 ∈ beside l₁ c l₂ L e R := by
    rintro rfl
    rcases h.behind with ⟨hl, -⟩ | ⟨g, hl, hfree, -, -⟩
    · exact absurd hl.symm hne
    · exact .inr (.inl ((hmerge.next g [] hl hfree).2 rfl))
  intro x hx
  simp only [Heap.behind, List.mem_cons, List.not_mem_nil, or_false] at hx
  rcases hx with rfl | rfl
  · cases R with
    | nil => exact hnull rfl
    | cons k R => exact .inr (.inr (.inr (.inr (.inl rfl))))
  · cases hl : frees R with
    | nil => exact hnull (hlayout.eq_nil_of_frees hl)
    | cons k l => exact .inr (.inr (.inr (.inr (.inr (.inl (by rw [hl]; rfl))))))

/-- What `free` does to a layout when the links that it needs are current. -/
structure FreeEffect (base : Nat) (s s' : HeapState) (l₁ : List Segment) (c : Segment)
    (l₂ loose L : List Segment) (e : Segment) (R : List Segment) : Prop where
  holds : Holds base s' (L ++ e :: R) loose
  freed : FreedAs l₁ c l₂ L e R
  length : ∀ k ∈ l₁ ++ l₂ ++ loose, k.free = false →
    s'.memory.read k.header .memoryLength = s.memory.read k.header .memoryLength
  flag : ∀ k ∈ l₁ ++ l₂ ++ loose, k.free = false →
    s'.memory.read k.header .free = s.memory.read k.header .free
  spaced : Spaced (l₁ ++ c :: l₂) → Spaced (L ++ e :: R)
  writes : s.memory.written = [] → s'.memory.WritesIn (beside l₁ c l₂ L e R)

theorem Holds.freeEffect (h : Holds base s (l₁ ++ c :: l₂) loose) (hlive : c.free = false)
    (hlinks : FreeLinks s.memory l₁ c l₂ loose) (hmerge : MergeLinks s.memory l₁ c l₂) :
    ∃ L e R, FreeEffect base s (Heap.free (c.header + 24) s) l₁ c l₂ loose L e R := by
  have hheader : headerOf (c.header + 24) = c.header := by
    have hfin := (h.layout.inside c (by simp)).2
    have hlimit := h.layout.limit
    have hlt := c.header_lt_finish
    simp only [headerOf, headerSize, u32]
    omega
  obtain ⟨g, l₃, rfl⟩ : ∃ g l, l₂ = g :: l := by
    rcases h.layout.last_after with ⟨-, hfree⟩ | ⟨l, g, rfl, -⟩
    · rw [hlive] at hfree
      exact absurd hfree (by decide)
    · cases l with
      | nil => exact ⟨g, [], rfl⟩
      | cons k l => exact ⟨k, l ++ [g], rfl⟩
  have he := h.relinkEffect hlive hlinks
  obtain ⟨hkeptNext, hwritesNext⟩ := h.mergeNext_writes hlive hlinks
  have hwritesRelinked := fun B : Set Nat => h.relinked_writesIn (B := B) hlinks hmerge.nextFree
  obtain ⟨c', R, hc', hfree', hbehind, hholds, hprevious, hnext⟩ := h.mergeNext hlive hlinks
  have hsegment : (Heap.mergeNext c.header (relinked c.header s.memory)).read c'.header
      .previousSegment = 0 ∨ ∃ k, l₁.getLast? = some k ∧
        (Heap.mergeNext c.header (relinked c.header s.memory)).read c'.header
          .previousSegment = k.header ∧ (k.free = true → k.finish = c'.header) := by
    rw [hc', hprevious]
    exact hlinks.segment
  obtain ⟨chain, hchain, -, hback⟩ := hholds.mergePrevious hfree' hsegment
  obtain ⟨hkeptPrevious, hwritesPrevious⟩ := hholds.mergePrevious_writes hfree' (by
    rcases hsegment with h0 | ⟨k, hk, hps, -⟩
    · exact .inl h0
    · exact .inr ⟨k, hk, hps⟩)
  obtain ⟨L, e, rfl, hfreed⟩ := freedAs hc' hnext hback
  rw [hc'] at hchain hkeptPrevious hwritesPrevious
  have hothers : ∀ k ∈ l₁ ++ g :: l₃ ++ loose, k.free = false → k ∈ l₁ ++ R ++ loose := by
    intro k hk hklive
    simp only [List.mem_append] at hk ⊢
    rcases hk with (hk | hk) | hk
    · exact .inl (.inl hk)
    · exact .inl (.inr (hbehind k hk hklive))
    · exact .inr hk
  have hmemory : (Heap.free (c.header + 24) s).memory =
      Heap.mergePrevious c.header (Heap.mergeNext c.header (relinked c.header s.memory)) := by
    rw [free_eq, hheader]
  refine ⟨L, e, R, ?_, hfreed, ?_, ?_, ?_, ?_⟩
  · rw [free_eq, hheader]
    exact hchain
  · intro k hk hklive
    rw [hmemory]
    have hkR : k ∈ (l₁ ++ R ++ loose).filter fun k => !k.free :=
      List.mem_filter.mpr ⟨hothers k hk hklive, by simp [hklive]⟩
    exact (hkeptPrevious.length k hkR).trans
      ((hkeptNext.length k hk).trans (he.keeps k hk).length)
  · intro k hk hklive
    rw [hmemory]
    have hkR : k ∈ l₁ ++ c' :: R ++ loose := by
      rcases List.mem_append.mp (hothers k hk hklive) with hk | hk
      · exact List.mem_append_left _ (mem_append_cons_of_mem hk)
      · exact List.mem_append_right _ hk
    have hkl : k ∈ l₁ ++ c :: g :: l₃ ++ loose := by
      rcases List.mem_append.mp hk with hk | hk
      · exact List.mem_append_left _ (mem_append_cons_of_mem hk)
      · exact List.mem_append_right _ hk
    exact (hkeptPrevious.flag k hkR).trans
      ((hkeptNext.flag k hkl).trans (he.keeps k hk).flag)
  · intro hspaced
    rw [Spaced, List.isChain_append] at hspaced
    have hbehind : Spaced (c' :: R) := Spaced.release_next hspaced.2.1 hnext (by
      rintro k hk hkfree
      obtain rfl := Option.some.inj hk
      exact (hmerge.next g l₃ rfl hkfree).1)
    apply Spaced.release_previous hspaced.1 hbehind hfree' hback
    intro k hk hkfree hadj
    rw [hc'] at hadj ⊢
    obtain ⟨h0, hps⟩ := hmerge.previous k hk hkfree hadj
    exact ⟨h0, hprevious.trans hps⟩
  · intro hwritten
    rw [hmemory]
    have hbehindB := hfreed.behind_mem hchain.layout (List.cons_ne_nil g l₃) hmerge
    apply hwritesPrevious (beside l₁ c (g :: l₃) L e R)
    · apply hwritesNext (beside l₁ c (g :: l₃) L e R)
      · apply hwritesRelinked (beside l₁ c (g :: l₃) L e R)
        · intro x hx
          rw [hwritten] at hx
          simp at hx
        · exact .inl rfl
        · exact fun x hx => hfreed.frees_before_mem hx
        · exact fun x hx => hfreed.frees_behind_mem hx
      · exact .inl rfl
      · exact .inr (.inr (.inl ⟨g, rfl, rfl⟩))
      · intro hgfree h0
        cases hnext with
        | keep hkept _ _ => exact absurd ⟨hgfree, h0⟩ hkept
        | merge => exact hbehindB
    · exact fun k hk => .inr (.inl ⟨k, hk, rfl⟩)
    · exact hbehindB

/-- The headers around the freed segment are headers of the layout. -/
theorem FreedAs.exists_of_mem_beside (h : FreedAs l₁ c l₂ L e R) {x : Nat}
    (hx : x ∈ beside l₁ c l₂ L e R) : ∃ k ∈ l₁ ++ c :: l₂, k.header = x := by
  have hL : ∀ k ∈ L, k ∈ l₁ := by
    intro k hk
    rcases h.before with ⟨rfl, -⟩ | ⟨g, rfl, -⟩
    · exact hk
    · exact List.mem_append_left _ hk
  have hR : ∀ k ∈ R, k ∈ l₂ := by
    intro k hk
    rcases h.behind with ⟨rfl, -⟩ | ⟨g, rfl, -⟩
    · exact hk
    · exact List.mem_cons_of_mem _ hk
  rcases hx with rfl | ⟨k, hk, rfl⟩ | ⟨g, hg, rfl⟩ | rfl | hx | hx | hx
  · exact ⟨c, by simp, rfl⟩
  · exact ⟨k, by simp [List.mem_of_getLast? hk], rfl⟩
  · exact ⟨g, by simp [List.mem_of_mem_head? hg], rfl⟩
  · rcases h.before with ⟨-, heq⟩ | ⟨k, rfl, -, -, heq⟩
    · exact ⟨c, by simp, heq.symm⟩
    · exact ⟨k, by simp, heq.symm⟩
  · obtain ⟨k, hk, rfl⟩ := List.mem_map.mp (List.mem_of_mem_head? hx)
    exact ⟨k, by simp [hR k hk], rfl⟩
  · obtain ⟨k, hk, -, rfl⟩ := mem_frees.mp (List.mem_of_mem_head? hx)
    exact ⟨k, by simp [hR k hk], rfl⟩
  · obtain ⟨k, hk, -, rfl⟩ := mem_frees.mp (List.mem_of_getLast? hx)
    exact ⟨k, by simp [hL k hk], rfl⟩

end Release

end NickOS3.Heap
