import NickOS3.Heap.Effects
import NickOS3.Heap.Layout

/-!
# Memory that holds a layout

`Holds` says that the headers in memory describe a layout: the chain of
`nextSegment` visits its segments in order, the flags and the lengths of free
segments are theirs, and `nextFreeSegment` visits the free ones. The back links are
not part of it; where a step of the allocator reads one, its lemma says what that
link must be.
-/

namespace NickOS3.Heap

open Foundation

/-- The links, flags and lengths in memory are those of the segments. -/
structure Chained (base : Nat) (m : Memory) (chain loose : List Segment) : Prop where
  next : Follows (m.read · .nextSegment) base (chain.map (·.header)) 0
  flag : ∀ g ∈ chain ++ loose, (m.read g.header .free ≠ 0 ↔ g.free = true)
  length : ∀ g ∈ chain, g.free = true → m.read g.header .memoryLength = g.size
  adjacent : ∀ g ∈ chain, g.free = false → m.read g.header .nextSegment = g.finish

/-- The heap holds a layout, and its free list is the free part of the chain. -/
structure Holds (base : Nat) (s : HeapState) (chain loose : List Segment) : Prop where
  layout : Layout base (s.nextFreePageIndex * PGSIZE) chain loose
  chained : Chained base s.memory chain loose
  freeChain : Follows (s.memory.read · .nextFreeSegment) s.firstFreeSegment (frees chain) 0

/-- `m'` has the length, the link and the flag that `m` has in the header at `x`. -/
structure Keeps (m m' : Memory) (x : Nat) : Prop where
  length : m'.read x .memoryLength = m.read x .memoryLength
  next : m'.read x .nextSegment = m.read x .nextSegment
  flag : m'.read x .free = m.read x .free

theorem follows_keeps {m m' : Memory} {a stop : Nat} {l : List Segment}
    (h : Follows (m.read · .nextSegment) a (l.map (·.header)) stop)
    (hkeeps : ∀ k ∈ l, Keeps m m' k.header) :
    Follows (m'.read · .nextSegment) a (l.map (·.header)) stop := by
  apply h.congr
  intro x hx
  obtain ⟨k, hk, rfl⟩ := List.mem_map.mp hx
  exact (hkeeps k hk).next

/-- Memory may change in the headers of some segments, when it then describes what is
there instead. -/
theorem Chained.replace {base : Nat} {m m' : Memory} {l₁ old new l₂ loose : List Segment}
    (h : Chained base m (l₁ ++ old ++ l₂) loose)
    (hkeeps : ∀ k ∈ l₁ ++ l₂ ++ loose, Keeps m m' k.header)
    (hlinks : ∀ x y, Follows (m.read · .nextSegment) x (old.map (·.header)) y →
      Follows (m'.read · .nextSegment) x (new.map (·.header)) y)
    (hflag : ∀ g ∈ new, (m'.read g.header .free ≠ 0 ↔ g.free = true))
    (hlength : ∀ g ∈ new, g.free = true → m'.read g.header .memoryLength = g.size)
    (hadjacent : ∀ g ∈ new, g.free = false → m'.read g.header .nextSegment = g.finish) :
    Chained base m' (l₁ ++ new ++ l₂) loose := by
  constructor
  · have hnext := h.next
    simp only [List.map_append, follows_append] at hnext ⊢
    obtain ⟨y, ⟨x, h₁, hold⟩, h₂⟩ := hnext
    exact ⟨y, ⟨x, follows_keeps h₁ fun k hk => hkeeps k (by simp [hk]), hlinks x y hold⟩,
      follows_keeps h₂ fun k hk => hkeeps k (by simp [hk])⟩
  · intro g hg
    by_cases hnew : g ∈ new
    · exact hflag g hnew
    · have hg : g ∈ l₁ ++ l₂ ++ loose := by
        simp only [List.mem_append] at hg ⊢
        tauto
      rw [(hkeeps g hg).flag]
      apply h.flag
      simp only [List.mem_append] at hg ⊢
      tauto
  · intro g hg hfree
    by_cases hnew : g ∈ new
    · exact hlength g hnew hfree
    · have hg : g ∈ l₁ ++ l₂ := by
        simp only [List.mem_append] at hg ⊢
        tauto
      rw [(hkeeps g (List.mem_append_left _ hg)).length]
      apply h.length g _ hfree
      simp only [List.mem_append] at hg ⊢
      tauto
  · intro g hg hlive
    by_cases hnew : g ∈ new
    · exact hadjacent g hnew hlive
    · have hg : g ∈ l₁ ++ l₂ := by
        simp only [List.mem_append] at hg ⊢
        tauto
      rw [(hkeeps g (List.mem_append_left _ hg)).next]
      apply h.adjacent g _ hlive
      simp only [List.mem_append] at hg ⊢
      tauto

/-- Memory that agrees on the headers of the segments holds the same chain. -/
theorem Chained.congr {base : Nat} {m m' : Memory} {chain loose : List Segment}
    (h : Chained base m chain loose) (hkeeps : ∀ k ∈ chain ++ loose, Keeps m m' k.header) :
    Chained base m' chain loose := by
  have hold : Chained base m (chain ++ [] ++ []) loose := by simpa using h
  have hreplace : Chained base m' (chain ++ [] ++ []) loose := by
    apply hold.replace
    · intro k hk
      exact hkeeps k (by simpa using hk)
    · simp
    · simp
    · simp
    · simp
  simpa using hreplace

theorem follows_frees_congr {m m' : Memory} {a stop : Nat} {l : List Segment}
    (h : Follows (m.read · .nextFreeSegment) a (frees l) stop)
    (heq : ∀ k ∈ l, m'.read k.header .nextFreeSegment = m.read k.header .nextFreeSegment) :
    Follows (m'.read · .nextFreeSegment) a (frees l) stop := by
  apply h.congr
  intro x hx
  obtain ⟨g, hg, -, rfl⟩ := mem_frees.mp hx
  exact heq g hg

/-- The back links of the free segments lead back along them and end with null. -/
def BackLinked (m : Memory) (chain : List Segment) : Prop :=
  Mirrors (m.read · .previousFreeSegment) 0 (frees chain)

theorem mirrors_frees_congr {m m' : Memory} {p : Nat} {l : List Segment}
    (h : Mirrors (m.read · .previousFreeSegment) p (frees l))
    (heq : ∀ k ∈ l,
      m'.read k.header .previousFreeSegment = m.read k.header .previousFreeSegment) :
    Mirrors (m'.read · .previousFreeSegment) p (frees l) := by
  apply h.congr
  intro x hx
  obtain ⟨g, hg, -, rfl⟩ := mem_frees.mp hx
  exact heq g hg

/-- Memory that agrees on the headers of a layout holds it. -/
theorem Holds.congr {base first index : Nat} {m m' : Memory} {chain loose : List Segment}
    (h : Holds base ⟨m, first, index⟩ chain loose)
    (hread : ∀ k ∈ chain ++ loose, ∀ f, m'.read k.header f = m.read k.header f) :
    Holds base ⟨m', first, index⟩ chain loose := by
  constructor
  · exact h.layout
  · exact h.chained.congr fun k hk => ⟨hread k hk _, hread k hk _, hread k hk _⟩
  · exact follows_frees_congr h.freeChain fun k hk => hread k (List.mem_append_left _ hk) _

section Split

variable {base size : Nat} {s s' : HeapState} {l₁ l₂ loose : List Segment} {c : Segment}

/-- The back links of the segment that `malloc` takes are current: they lead to the free
segment and to the segment before it. -/
structure SplitLinks (m : Memory) (l₁ : List Segment) (c : Segment) : Prop where
  free : ∀ x, (frees l₁).getLast? = some x → x ≠ 0 ∧ m.read c.header .previousFreeSegment = x
  noFree : frees l₁ = [] → m.read c.header .previousFreeSegment = 0
  segment : m.read c.header .previousSegment = 0 ∨
    ∃ k, l₁.getLast? = some k ∧ m.read c.header .previousSegment = k.header

/-- Where the writes through the back links go. -/
theorem SplitLinks.target {m : Memory} (h : SplitLinks m l₁ c) {x : Nat} (hx : x ≠ 0)
    (heq : x = m.read c.header .previousFreeSegment ∨ x = m.read c.header .previousSegment) :
    ∃ g ∈ l₁, g.header = x ∧ (g.free = true → (frees l₁).getLast? = some x) := by
  rcases heq with heq | heq
  · cases hl : (frees l₁).getLast? with
    | none => exact absurd (heq.trans (h.noFree (List.getLast?_eq_none_iff.mp hl))) hx
    | some y =>
        obtain ⟨g, hg, -, hgy⟩ := mem_frees.mp (List.mem_of_getLast? hl)
        have hxy : x = y := heq.trans (h.free y hl).2
        exact ⟨g, hg, hgy.trans hxy.symm, fun _ => by rw [hxy]⟩
  · rcases h.segment with h0 | ⟨g, hg, hps⟩
    · exact absurd (heq.trans h0) hx
    · have hgx : g.header = x := (heq.trans hps).symm
      exact ⟨g, List.mem_of_getLast? hg, hgx, fun hfree => hgx ▸ getLast?_frees hg hfree⟩

/-- What `mallocSplit` does to the headers of a layout. -/
structure SplitEffect (s s' : HeapState) (c : Segment) (size : Nat)
    (others : List Segment) : Prop where
  keeps : ∀ k ∈ others, Keeps s.memory s'.memory k.header
  nextFree : ∀ k ∈ others, s'.memory.read k.header .nextFreeSegment =
    if k.header ≠ 0 ∧ (k.header = s.memory.read c.header .previousFreeSegment ∨
        k.header = s.memory.read c.header .previousSegment) then (c.rest size).header
    else s.memory.read k.header .nextFreeSegment
  previousFree : ∀ k ∈ others, s'.memory.read k.header .previousFreeSegment =
    s.memory.read k.header .previousFreeSegment
  takeLength : s'.memory.read c.header .memoryLength = size
  takeNext : s'.memory.read c.header .nextSegment = (c.rest size).header
  takeFlag : s'.memory.read c.header .free = 0
  restLength : s'.memory.read (c.rest size).header .memoryLength = (c.rest size).size
  restNext : s'.memory.read (c.rest size).header .nextSegment =
    s.memory.read c.header .nextSegment
  restNextFree : s'.memory.read (c.rest size).header .nextFreeSegment =
    s.memory.read c.header .nextFreeSegment
  restPreviousFree : s'.memory.read (c.rest size).header .previousFreeSegment =
    s.memory.read c.header .previousFreeSegment
  restFlag : s'.memory.read (c.rest size).header .free = 1
  first : s'.firstFreeSegment =
    if c.header = s.firstFreeSegment then (c.rest size).header else s.firstFreeSegment
  index : s'.nextFreePageIndex = s.nextFreePageIndex

theorem Holds.splitEffect (h : Holds base s (l₁ ++ c :: l₂) loose) (hfree : c.free = true)
    (hsize : size + 24 ≤ c.size) (hlinks : SplitLinks s.memory l₁ c) :
    SplitEffect s (mallocSplit size c.header s).1 c size (l₁ ++ l₂ ++ loose) := by
  have hlayout : Layout base (s.nextFreePageIndex * PGSIZE)
      (l₁ ++ [c.take size, c.rest size] ++ l₂) loose := by
    simpa using h.layout.split hsize
  obtain ⟨hbase, hfin⟩ := h.layout.inside c (by simp)
  have hlimit := h.layout.limit
  have hlen := h.chained.length c (by simp) hfree
  have hc : ∀ k ∈ l₁ ++ l₂ ++ loose, k.header ≠ c.header :=
    fun k hk => hlayout.header_ne hk (g := c.take size) (by simp)
  have hn : ∀ k ∈ l₁ ++ l₂ ++ loose, k.header ≠ (c.rest size).header :=
    fun k hk => hlayout.header_ne hk (by simp)
  have hmem : ∀ k ∈ l₁ ++ l₂ ++ loose, k.header ∈
      Layout.headers (l₁ ++ [c.take size, c.rest size] ++ l₂) loose :=
    fun k hk => Layout.mem_headers_of_other hk
  have hcA : (c.take size).header ∈
      Layout.headers (l₁ ++ [c.take size, c.rest size] ++ l₂) loose :=
    Layout.mem_headers (by simp)
  have hnA : (c.rest size).header ∈
      Layout.headers (l₁ ++ [c.take size, c.rest size] ++ l₂) loose :=
    Layout.mem_headers (by simp)
  have h0A : 0 ∈ Layout.headers (l₁ ++ [c.take size, c.rest size] ++ l₂) loose :=
    Layout.zero_mem_headers
  simp only [Segment.finish, headerSize] at hfin
  have hlt : c.header + 24 + size < 4294967296 := by omega
  have hcn : c.header ≠ (c.rest size).header := by
    rw [Segment.rest_header]
    omega
  have hn0 : (c.rest size).header ≠ 0 := by
    rw [Segment.rest_header]
    omega
  have hpfA : s.memory.read c.header .previousFreeSegment ∈
      Layout.headers (l₁ ++ [c.take size, c.rest size] ++ l₂) loose ∧
      s.memory.read c.header .previousFreeSegment ≠ (c.rest size).header := by
    by_cases hl : frees l₁ = []
    · rw [hlinks.noFree hl]
      exact ⟨h0A, hn0.symm⟩
    · obtain ⟨x, hx⟩ := Option.ne_none_iff_exists'.mp (mt List.getLast?_eq_none_iff.mp hl)
      obtain ⟨g, hg, -, rfl⟩ := mem_frees.mp (List.mem_of_getLast? hx)
      rw [(hlinks.free _ hx).2]
      exact ⟨hmem g (by simp [hg]), hn g (by simp [hg])⟩
  have hpsA : s.memory.read c.header .previousSegment ∈
      Layout.headers (l₁ ++ [c.take size, c.rest size] ++ l₂) loose ∧
      s.memory.read c.header .previousSegment ≠ (c.rest size).header := by
    rcases hlinks.segment with h0 | ⟨k, hk, hps⟩
    · rw [h0]
      exact ⟨h0A, hn0.symm⟩
    · have hk := List.mem_of_getLast? hk
      rw [hps]
      exact ⟨hmem k (by simp [hk]), hn k (by simp [hk])⟩
  have hread := fun x hx => mallocSplit_read (x := x) hlayout.separated hcA hnA
    (by rw [Segment.rest_header, Segment.take_header, headerSize, u32_of_lt hlt]) hcn hn0
    hpfA.1 hpsA.1 hpfA.2 hpsA.2 hx
  have hsub : u32 (c.size + 4294967296 - u32 (24 + size)) = (c.rest size).size := by
    simp only [Segment.rest, u32]
    omega
  have hfirst : u32 (c.header + 24 + size) = (c.rest size).header := u32_of_lt hlt
  simp only [Segment.take_header] at hread hcA
  constructor
  · intro k hk
    constructor <;> simp [hread _ (hmem k hk), hc k hk, hn k hk, -Segment.rest_header]
  · intro k hk
    simp [hread _ (hmem k hk), hc k hk, hn k hk, -Segment.rest_header]
  · intro k hk
    simp [hread _ (hmem k hk), hn k hk, -Segment.rest_header]
  · simp [hread _ hcA, hcn, -Segment.rest_header]
  · simp [hread _ hcA, hcn, -Segment.rest_header]
  · simp [hread _ hcA, hcn, -Segment.rest_header]
  · simp [hread _ hnA, hlen, headerSize, hsub, -Segment.rest_header]
  · simp [hread _ hnA, -Segment.rest_header]
  · simp [hread _ hnA, -Segment.rest_header]
  · simp [hread _ hnA, -Segment.rest_header]
  · simp [hread _ hnA, -Segment.rest_header]
  · rw [← hfirst]
    rfl
  · rfl

/-- Taking a block from a free segment whose back links are current keeps the layout. -/
theorem Holds.mallocSplit (h : Holds base s (l₁ ++ c :: l₂) loose) (hfree : c.free = true)
    (hsize : size + 24 ≤ c.size) (hlinks : SplitLinks s.memory l₁ c) :
    Holds base (mallocSplit size c.header s).1
      (l₁ ++ c.take size :: c.rest size :: l₂) loose := by
  have he := h.splitEffect hfree hsize hlinks
  generalize (Heap.mallocSplit size c.header s).1 = s' at he ⊢
  refine ⟨he.index ▸ h.layout.split hsize, ?_, ?_⟩
  · have hold : Chained base s.memory (l₁ ++ [c] ++ l₂) loose := by simpa using h.chained
    have hreplace : Chained base s'.memory (l₁ ++ [c.take size, c.rest size] ++ l₂) loose := by
      apply hold.replace
      · exact he.keeps
      · rintro x y ⟨rfl, rfl⟩
        exact ⟨rfl, he.takeNext, he.restNext⟩
      · simp [he.takeFlag, he.restFlag, -Segment.rest_header]
      · simp [he.restLength, -Segment.rest_header]
      · simp [he.takeNext, Segment.take_finish, -Segment.rest_header]
    simpa using hreplace
  · have hchain := h.freeChain
    have hnodup := h.layout.nodup_frees
    rw [frees_append, frees_cons_of_free hfree] at hchain hnodup
    rw [frees_append, frees_cons_of_live (by simp), frees_cons_of_free (by simp)]
    apply hchain.exchange
    · exact hnodup.sublist (List.sublist_append_left _ _)
    · rw [he.first]
      cases hl : frees l₁ with
      | nil =>
          rw [hl] at hchain
          simp [hchain.1]
      | cons x l =>
          rw [hl] at hchain hnodup
          have hne : c.header ≠ x := by
            rintro rfl
            simp at hnodup
          simp [hchain.1, hne]
    · intro z hz
      obtain ⟨g, hg, -, rfl⟩ := mem_frees.mp (List.mem_of_getLast? hz)
      obtain ⟨h0, hpf⟩ := hlinks.free _ hz
      rw [he.nextFree g (by simp [hg]), if_pos ⟨h0, .inl hpf.symm⟩]
    · intro z hz hlast
      obtain ⟨g, hg, hgf, rfl⟩ := mem_frees.mp hz
      rw [he.nextFree g (by simp [hg]), if_neg]
      rintro ⟨h0, heq⟩
      obtain ⟨k, hk, hkg, hfrees⟩ := hlinks.target h0 heq
      obtain rfl := h.layout.header_injective (by simp [hk]) (by simp [hg]) hkg
      exact hlast (hfrees hgf)
    · exact he.restNextFree
    · intro z hz
      obtain ⟨g, hg, hgf, rfl⟩ := mem_frees.mp hz
      rw [he.nextFree g (by simp [hg]), if_neg]
      rintro ⟨h0, heq⟩
      obtain ⟨k, hk, hkg, -⟩ := hlinks.target h0 heq
      have hlt := h.layout.header_lt hk hg
      omega

end Split

end NickOS3.Heap
