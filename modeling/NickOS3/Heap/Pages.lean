import NickOS3.Heap.Chains

/-!
# New pages

What `palloc_heap` gives, and how `malloc` links it. The new pages lie above all
segments; a block in them whose remainder modulo the page size is at most a header
is not linked to the chain.
-/

namespace NickOS3.Heap

open Foundation

/-- `s'` maps more pages than `s` and has the same bytes in the pages of `s`. -/
structure MapsMore (s s' : HeapState) (pages : Nat) : Prop where
  index : s'.nextFreePageIndex = s.nextFreePageIndex + pages
  first : s'.firstFreeSegment = s.firstFreeSegment
  words : ∀ a < s.nextFreePageIndex * PGSIZE, s'.memory.words a = s.memory.words a
  written : s'.memory.written = s.memory.written

theorem MapsMore.refl (s : HeapState) : MapsMore s s 0 :=
  ⟨rfl, rfl, fun _ _ => rfl, rfl⟩

theorem MapsMore.mapHeapPage {s s' : HeapState} {pages : Nat} {frame : Frame}
    (hindex : s.nextFreePageIndex < 1048576) (h : MapsMore (s.mapHeapPage frame) s' pages) :
    MapsMore s s' (pages + 1) := by
  constructor
  · rw [h.index]
    exact Nat.add_right_comm _ _ _
  · exact h.first
  · intro a ha
    rw [h.words a (ha.trans_le (Nat.mul_le_mul_right _ (Nat.le_succ _)))]
    have hu : u32 (s.nextFreePageIndex * PGSIZE) = s.nextFreePageIndex * PGSIZE :=
      u32_of_lt (by rw [PGSIZE]; omega)
    simp only [HeapState.mapHeapPage, hu]
    rw [if_neg (by omega)]
  · exact h.written

/-- The loop of `palloc_heap` maps a page for each frame, and stops early only when the
frames run out. -/
theorem pallocHeapLoop_spec {n : Nat} {frames : List Frame} {s : HeapState}
    (hindex : s.nextFreePageIndex + frames.length ≤ 1048576) :
    ∃ pages, MapsMore s (pallocHeapLoop n frames s).1 pages ∧ pages ≤ frames.length ∧
      pages ≤ n ∧ ((pallocHeapLoop n frames s).2 = true ∧ pages = n ∨
        (pallocHeapLoop n frames s).2 = false ∧ frames.length < n ∧ pages = frames.length) := by
  induction n generalizing frames s with
  | zero => exact ⟨0, .refl s, by simp, le_rfl, .inl ⟨rfl, rfl⟩⟩
  | succ n ih =>
      cases frames with
      | nil => exact ⟨0, .refl s, le_rfl, by simp, .inr ⟨rfl, by simp, rfl⟩⟩
      | cons frame frames =>
          rw [List.length_cons] at hindex
          have hindex' : (s.mapHeapPage frame).nextFreePageIndex + frames.length ≤ 1048576 := by
            change s.nextFreePageIndex + 1 + frames.length ≤ 1048576
            omega
          obtain ⟨pages, hmaps, hle, hn, hres⟩ := ih hindex'
          refine ⟨pages + 1, hmaps.mapHeapPage (by omega), by simpa using hle, by omega, ?_⟩
          rw [pallocHeapLoop, List.length_cons]
          rcases hres with ⟨htrue, heq⟩ | ⟨hfalse, hlt, heq⟩
          · exact .inl ⟨htrue, by omega⟩
          · exact .inr ⟨hfalse, by omega, by omega⟩

/-- `palloc_heap` gives all the pages asked for, at the next page of the pool, or reports
that the frames ran out. -/
theorem pallocHeap_spec {n : Nat} {frames : List Frame} {s : HeapState} (hn : 0 < n)
    (hindex : s.nextFreePageIndex + frames.length ≤ 1048576) :
    ∃ pages, MapsMore s (pallocHeap n frames s).1 pages ∧ pages ≤ frames.length ∧
      ((pallocHeap n frames s).2 = s.nextFreePageIndex * PGSIZE ∧ pages = n ∨
        (pallocHeap n frames s).2 = NO_ADDR ∧ frames.length < n ∧ pages = frames.length) := by
  obtain ⟨pages, hmaps, hle, hpn, hres⟩ := pallocHeapLoop_spec (n := n) hindex
  refine ⟨pages, ?_, hle, ?_⟩
  · rw [pallocHeap]
    split <;> simp_all
  · rcases hres with ⟨htrue, heq⟩ | ⟨hfalse, hlt, heq⟩
    · left
      rw [pallocHeap]
      split
      · rw [if_neg (by omega), u32_of_lt (by rw [PGSIZE]; omega)]
        exact ⟨rfl, heq⟩
      · simp_all
    · right
      rw [pallocHeap]
      split
      · simp_all
      · exact ⟨rfl, hlt, heq⟩

section Raise

variable {base pages : Nat} {s s' : HeapState} {chain loose : List Segment}

/-- The bytes of a header in the old pages are as before. -/
theorem MapsMore.read {x : Nat} (h : MapsMore s s' pages)
    (hx : x + 24 ≤ s.nextFreePageIndex * PGSIZE)
    (hlimit : s.nextFreePageIndex * PGSIZE ≤ 4294967296) (f : Field) :
    s'.memory.read x f = s.memory.read x f := by
  have hf := f.offset_lt
  rw [Memory.read, Memory.read, u32_of_lt (by omega)]
  exact h.words _ (by omega)

/-- The headers of a layout in the old pages are as before. -/
theorem Holds.read_raise (h : Holds base s chain loose) (hmaps : MapsMore s s' pages)
    {k : Segment} (hk : k ∈ chain ++ loose) (f : Field) :
    s'.memory.read k.header f = s.memory.read k.header f :=
  hmaps.read (k.header_add_le_finish.trans (h.layout.inside k hk).2) h.layout.limit f

/-- New pages leave the layout of the old ones alone. -/
theorem Holds.raise (h : Holds base s chain loose) (hmaps : MapsMore s s' pages)
    (hlimit : s'.nextFreePageIndex * PGSIZE ≤ 4294967296) : Holds base s' chain loose := by
  have hread := fun k (hk : k ∈ chain ++ loose) => h.read_raise hmaps hk
  constructor
  · apply h.layout.raise _ hlimit
    rw [hmaps.index]
    exact Nat.mul_le_mul_right _ (Nat.le_add_right _ _)
  · exact h.chained.congr fun k hk => ⟨hread k hk _, hread k hk _, hread k hk _⟩
  · rw [hmaps.first]
    exact follows_frees_congr h.freeChain fun k hk => hread k (List.mem_append_left _ hk) _

theorem Holds.raise_backLinked (h : Holds base s chain loose) (hmaps : MapsMore s s' pages)
    (hback : BackLinked s.memory chain) : BackLinked s'.memory chain :=
  mirrors_frees_congr hback fun _ hk => h.read_raise hmaps (List.mem_append_left _ hk) _

end Raise

/-- The block at the start of new pages. -/
def newBlock (b size : Nat) : Segment := ⟨b, size, false⟩

/-- The free segment that `malloc` makes behind it. -/
def leftover (b size : Nat) : Segment :=
  ⟨b + headerSize + size, size % PGSIZE - headerSize, true⟩

section Link

variable {base size b top : Nat} {s : HeapState} {m' : Memory} {l loose : List Segment}
  {c : Segment}

/-- The last segment of a free list that ends the chain is the last of the chain. -/
theorem Holds.last_links (h : Holds base s (l ++ [c]) loose) (hfree : c.free = true) :
    s.memory.read c.header .nextSegment = 0 ∧
      s.memory.read c.header .nextFreeSegment = 0 := by
  have hnext := h.chained.next
  have hchain := h.freeChain
  rw [List.map_append, List.map_cons, follows_append_cons] at hnext
  rw [frees_append, frees_cons_of_free hfree, follows_append_cons] at hchain
  exact ⟨hnext.2, hchain.2⟩

/-- What `linkNewPages` makes of new pages with a remainder. -/
structure LinkEffect (m m' : Memory) (size b : Nat) (c : Segment)
    (others : List Segment) : Prop where
  keeps : ∀ k ∈ others, Keeps m m' k.header
  nextFree : ∀ k ∈ others, m'.read k.header .nextFreeSegment = m.read k.header .nextFreeSegment
  previousFree : ∀ k ∈ others,
    m'.read k.header .previousFreeSegment = m.read k.header .previousFreeSegment
  lastLength : m'.read c.header .memoryLength = m.read c.header .memoryLength
  lastNext : m'.read c.header .nextSegment = b
  lastNextFree : m'.read c.header .nextFreeSegment = (leftover b size).header
  lastPreviousFree : m'.read c.header .previousFreeSegment = m.read c.header .previousFreeSegment
  lastFlag : m'.read c.header .free = m.read c.header .free
  blockNext : m'.read b .nextSegment = (leftover b size).header
  blockFlag : m'.read b .free = 0
  leftLength : m'.read (leftover b size).header .memoryLength = (leftover b size).size
  leftNext : m'.read (leftover b size).header .nextSegment = 0
  leftNextFree : m'.read (leftover b size).header .nextFreeSegment = 0
  leftPreviousFree : m.read c.header .free ≠ 0 →
    m'.read (leftover b size).header .previousFreeSegment = c.header
  leftFlag : m'.read (leftover b size).header .free = 1

theorem linkEffect {m : Memory} (hrem : headerSize < size % PGSIZE)
    (hlayout : Layout base top ((l ++ [c]) ++ [newBlock b size, leftover b size]) loose)
    (hlink : linkNewPages size c.header b m = some m') :
    LinkEffect m m' size b c (l ++ loose) := by
  have hs := hlayout.sorted
  simp only [List.pairwise_append, List.mem_append, List.mem_cons, List.not_mem_nil, or_false,
    List.pairwise_cons] at hs
  have hcb : c.header < b := hs.2.2 c (.inr rfl) (newBlock b size) (.inl rfl)
  have hcn : c.header < (leftover b size).header := hs.2.2 c (.inr rfl) _ (.inr rfl)
  have hbn : b < (leftover b size).header := hs.2.1.1 _ rfl
  have hlayout' : Layout base top (l ++ [c, newBlock b size, leftover b size] ++ []) loose := by
    simpa using hlayout
  have hothers : ∀ k ∈ l ++ loose, k ∈ l ++ [] ++ loose := by simp
  have hc : ∀ k ∈ l ++ loose, k.header ≠ c.header :=
    fun k hk => hlayout'.header_ne (hothers k hk) (by simp)
  have hb : ∀ k ∈ l ++ loose, k.header ≠ b :=
    fun k hk => hlayout'.header_ne (hothers k hk) (g := newBlock b size) (by simp)
  have hn : ∀ k ∈ l ++ loose, k.header ≠ (leftover b size).header :=
    fun k hk => hlayout'.header_ne (hothers k hk) (by simp)
  have hmem : ∀ k ∈ l ++ loose, k.header ∈
      Layout.headers (l ++ [c, newBlock b size, leftover b size] ++ []) loose :=
    fun k hk => Layout.mem_headers_of_other (hothers k hk)
  have hcA : c.header ∈
      Layout.headers (l ++ [c, newBlock b size, leftover b size] ++ []) loose :=
    Layout.mem_headers (by simp)
  have hbA : (newBlock b size).header ∈
      Layout.headers (l ++ [c, newBlock b size, leftover b size] ++ []) loose :=
    Layout.mem_headers (by simp)
  have hnA : (leftover b size).header ∈
      Layout.headers (l ++ [c, newBlock b size, leftover b size] ++ []) loose :=
    Layout.mem_headers (by simp)
  have hfin := (hlayout.inside (leftover b size) (by simp)).2
  have hlt := (leftover b size).header_lt_finish
  have hlimit := hlayout.limit
  have hnew : (leftover b size).header = u32 (b + headerSize + size) :=
    (u32_of_lt (x := (leftover b size).header) (by omega)).symm
  obtain ⟨m₁, tmp, -, -, hread⟩ := linkNewPages_read hlayout'.separated hcA hbA hnA hnew
    hcb.ne hcn.ne hbn.ne hrem hlink
  change b ∈ _ at hbA
  have hbdef : (newBlock b size).header = b := rfl
  rw [hbdef] at hread
  constructor
  · intro k hk
    constructor <;> simp [hread _ (hmem k hk), hc k hk, hb k hk, hn k hk]
  · intro k hk
    simp [hread _ (hmem k hk), hc k hk, hb k hk, hn k hk]
  · intro k hk
    simp [hread _ (hmem k hk), hb k hk, hn k hk]
  · simp [hread _ hcA, hcn.ne]
  · simp [hread _ hcA, hcn.ne]
  · simp [hread _ hcA, hcn.ne]
  · simp [hread _ hcA, hcn.ne, hcb.ne]
  · simp [hread _ hcA, hcn.ne, hcb.ne]
  · simp [hread _ hbA, hbn.ne, hcb.ne']
  · simp [hread _ hbA, hbn.ne]
  · rw [hread _ hnA]
    exact if_pos rfl
  · simp [hread _ hnA]
  · simp [hread _ hnA]
  · intro hflag
    simp [hread _ hnA, hflag]
  · simp [hread _ hnA]

/-- New pages with a remainder: the block and a free segment follow the chain. -/
theorem Holds.linkNewPages (h : Holds base s (l ++ [c]) loose) (hfree : c.free = true)
    (hrem : headerSize < size % PGSIZE)
    (hlayout : Layout base (s.nextFreePageIndex * PGSIZE)
      ((l ++ [c]) ++ [newBlock b size, leftover b size]) loose)
    (hlink : linkNewPages size c.header b s.memory = some m') :
    Holds base { s with memory := m' }
      ((l ++ [c]) ++ [newBlock b size, leftover b size]) loose := by
  have he := linkEffect hrem hlayout hlink
  obtain ⟨hlastNext, hlastNextFree⟩ := h.last_links hfree
  have hflag := h.chained.flag c (by simp)
  have hlen := h.chained.length c (by simp) hfree
  refine ⟨hlayout, ?_, ?_⟩
  · have hold : Chained base s.memory (l ++ [c] ++ []) loose := by simpa using h.chained
    have hreplace : Chained base m'
        (l ++ [c, newBlock b size, leftover b size] ++ []) loose := by
      apply hold.replace
      · intro k hk
        exact he.keeps k (by simpa using hk)
      · rintro x y ⟨rfl, rfl⟩
        exact ⟨rfl, he.lastNext, he.blockNext, he.leftNext.trans hlastNext.symm⟩
      · intro g hg
        simp only [List.mem_cons, List.not_mem_nil, or_false] at hg
        rcases hg with rfl | rfl | rfl
        · rw [he.lastFlag]
          exact hflag
        · simp [newBlock, he.blockFlag]
        · rw [he.leftFlag]
          simp [leftover]
      · intro g hg hgf
        simp only [List.mem_cons, List.not_mem_nil, or_false] at hg
        rcases hg with rfl | rfl | rfl
        · exact he.lastLength.trans hlen
        · exact absurd hgf (by simp [newBlock])
        · exact he.leftLength
      · intro g hg hgl
        simp only [List.mem_cons, List.not_mem_nil, or_false] at hg
        rcases hg with rfl | rfl | rfl
        · rw [hfree] at hgl
          exact absurd hgl (by decide)
        · exact he.blockNext
        · exact absurd hgl (by simp [leftover])
    simpa using hreplace
  · have hchain := h.freeChain
    rw [frees_append, frees_cons_of_free hfree, follows_append_cons] at hchain
    rw [List.append_assoc, frees_append, List.singleton_append, frees_cons_of_free hfree,
      frees_cons_of_live (by rfl), frees_cons_of_free (by rfl), follows_append_cons]
    exact ⟨follows_frees_congr hchain.1 fun k hk => he.nextFree k (by simp [hk]),
      he.lastNextFree, he.leftNextFree⟩

/-- The free segment behind the new block leads back to the one that was last. -/
theorem LinkEffect.backLinked {m : Memory} (he : LinkEffect m m' size b c (l ++ loose))
    (hfree : c.free = true) (hflag : m.read c.header .free ≠ 0)
    (h : BackLinked m (l ++ [c])) :
    BackLinked m' ((l ++ [c]) ++ [newBlock b size, leftover b size]) := by
  have hold : Mirrors (m'.read · .previousFreeSegment) 0 (frees (l ++ [c])) := by
    apply mirrors_frees_congr h
    intro k hk
    rcases List.mem_append.mp hk with hk | hk
    · exact he.previousFree k (List.mem_append_left _ hk)
    · rw [List.mem_singleton.mp hk]
      exact he.lastPreviousFree
  rw [BackLinked, frees_append, mirrors_append, frees_cons_of_live rfl, frees_cons_of_free rfl]
  refine ⟨hold, ?_, trivial⟩
  rw [getLast?_frees List.getLast?_concat hfree]
  exact he.leftPreviousFree hflag

/-- New pages without a usable remainder: the block stays off the chain. -/
theorem Holds.linkNewPages_of_le (h : Holds base s (l ++ [c]) loose) (hfree : c.free = true)
    (hrem : size % PGSIZE ≤ headerSize)
    (hlayout : Layout base (s.nextFreePageIndex * PGSIZE) (l ++ [c])
      (newBlock b size :: loose)) :
    ∃ m', Heap.linkNewPages size c.header b s.memory = some m' ∧
      Holds base { s with memory := m' } (l ++ [c]) (newBlock b size :: loose) ∧
      (∀ k ∈ l ++ [c], m'.read k.header .previousFreeSegment =
        s.memory.read k.header .previousFreeSegment) := by
  obtain ⟨hlastNext, hlastNextFree⟩ := h.last_links hfree
  have hmem : ∀ k ∈ l ++ [c] ++ newBlock b size :: loose, k.header ∈
      Layout.headers (l ++ [c]) (newBlock b size :: loose) := fun k hk => Layout.mem_headers hk
  have hb : ∀ k ∈ l ++ [c] ++ loose, k.header ≠ b := fun k hk => hlayout.header_ne_loose hk
  have hold : ∀ k ∈ l ++ [c] ++ loose, k ∈ l ++ [c] ++ newBlock b size :: loose := by
    intro k hk
    simp only [List.mem_append, List.mem_cons] at hk ⊢
    tauto
  have hbA : b ∈ Layout.headers (l ++ [c]) (newBlock b size :: loose) :=
    hmem (newBlock b size) (by simp)
  obtain ⟨m', hlink, hread⟩ := linkNewPages_read_of_le (m := s.memory) hlayout.separated
    (hmem c (by simp)) hbA (hb c (by simp)) hrem
  have hkeeps : ∀ k ∈ l ++ [c] ++ loose, Keeps s.memory m' k.header := by
    intro k hk
    have hkA := hmem k (hold k hk)
    constructor
    · simp [hread _ hkA]
    · by_cases hkc : k.header = c.header
      · rw [hread _ hkA]
        simp [hkc, hlastNext]
      · simp [hread _ hkA, hkc, hb k hk]
    · simp [hread _ hkA, hb k hk]
  refine ⟨m', hlink, ⟨hlayout, ?_, ?_⟩, ?_⟩
  · constructor
    · exact follows_keeps h.chained.next fun k hk => hkeeps k (List.mem_append_left _ hk)
    · intro g hg
      simp only [List.mem_append, List.mem_cons] at hg
      by_cases hgb : g = newBlock b size
      · subst hgb
        change m'.read b .free ≠ 0 ↔ false = true
        rw [hread _ hbA]
        simp
      · have hg : g ∈ l ++ [c] ++ loose := by
          simp only [List.mem_append, List.mem_cons]
          tauto
        rw [(hkeeps g hg).flag]
        exact h.chained.flag g hg
    · intro g hg hgf
      rw [(hkeeps g (List.mem_append_left _ hg)).length]
      exact h.chained.length g hg hgf
    · intro g hg hgl
      rw [(hkeeps g (List.mem_append_left _ hg)).next]
      exact h.chained.adjacent g hg hgl
  · apply follows_frees_congr h.freeChain
    intro g hg
    have hg : g ∈ l ++ [c] ++ loose := List.mem_append_left _ hg
    by_cases hgc : g.header = c.header
    · rw [hread _ (hmem g (hold g hg))]
      simp [hgc, hlastNextFree]
    · simp [hread _ (hmem g (hold g hg)), hgc, hb g hg]
  · intro k hk
    have hk : k ∈ l ++ [c] ++ loose := List.mem_append_left _ hk
    simp [hread _ (hmem k (hold k hk)), hb k hk]

end Link

end NickOS3.Heap
