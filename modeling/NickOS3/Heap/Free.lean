import NickOS3.Heap.Chains

/-!
# Giving a block back

`free` sets the flag, repairs the links of the neighbouring free segments and merges
the segment with the ones next to it. For a segment whose links are current the
result holds the layout in which the segment is free.
-/

namespace NickOS3.Heap

open Foundation

section Relink

variable {base top : Nat} {s : HeapState} {m : Memory} {l₁ l₂ loose : List Segment}
  {c : Segment}

/-- The segment and its links are current when it is freed: its length is recorded; its
link to the next free segment overlaps no other header, and is right where no merge
overwrites it; its back links lead to the free segment and to the segment before it. -/
structure FreeLinks (m : Memory) (l₁ : List Segment) (c : Segment)
    (l₂ loose : List Segment) : Prop where
  length : m.read c.header .memoryLength = c.size
  clear : m.read c.header .nextFreeSegment = 0 ∨
    m.read c.header .nextFreeSegment + 24 ≤ 4294967296 ∧
    Apart c.header (m.read c.header .nextFreeSegment) ∧
    ∀ k ∈ l₁ ++ l₂ ++ loose, k.header = m.read c.header .nextFreeSegment ∨
      Apart k.header (m.read c.header .nextFreeSegment)
  nextFree : (c.header ≠ 0 ∧ ∃ g l, l₂ = g :: l ∧ g.free = true) ∨
    (frees l₂).head? = some (m.read c.header .nextFreeSegment)
  free : ∀ x, (frees l₁).getLast? = some x →
    x ≠ 0 ∧ m.read c.header .previousFreeSegment = x
  noFree : frees l₁ = [] → m.read c.header .previousFreeSegment = 0 ∨
    ∃ k ∈ l₁ ++ l₂ ++ loose, m.read c.header .previousFreeSegment = k.header ∧
      m.read k.header .nextFreeSegment ≤ c.header
  segment : m.read c.header .previousSegment = 0 ∨
    ∃ k, l₁.getLast? = some k ∧ m.read c.header .previousSegment = k.header ∧
      (k.free = true → k.finish = c.header)

/-- What setting the flag and repairing the free links does. -/
structure RelinkEffect (m m' : Memory) (l₁ : List Segment) (c : Segment)
    (others : List Segment) : Prop where
  keeps : ∀ k ∈ others, Keeps m m' k.header
  length : m'.read c.header .memoryLength = m.read c.header .memoryLength
  next : m'.read c.header .nextSegment = m.read c.header .nextSegment
  flag : m'.read c.header .free = 1
  previous : ∀ k ∈ c :: others,
    m'.read k.header .previousSegment = m.read k.header .previousSegment
  nextFree : ∀ k ∈ others, m'.read k.header .nextFreeSegment =
    if (frees l₁).getLast? = some k.header then c.header
    else m.read k.header .nextFreeSegment
  nextFreeSelf : m'.read c.header .nextFreeSegment = m.read c.header .nextFreeSegment
  previousFree : ∀ k ∈ others, m'.read k.header .previousFreeSegment =
    if k.header ≠ 0 ∧ k.header = m.read c.header .nextFreeSegment ∧
      m.read k.header .previousFreeSegment < c.header then c.header
    else m.read k.header .previousFreeSegment
  previousFreeSelf :
    m'.read c.header .previousFreeSegment = m.read c.header .previousFreeSegment

/-- The flag and the free links as `free` writes them before it merges. -/
def relinked (c : Nat) (m : Memory) : Memory :=
  relinkPreviousFree c (relinkNextFree c (m.write c .free 1))

/-- What `free` leaves. -/
theorem free_eq (address : Nat) (s : HeapState) : Heap.free address s =
    ⟨mergePrevious (headerOf address)
        (mergeNext (headerOf address) (relinked (headerOf address) s.memory)),
      if headerOf address < s.firstFreeSegment then headerOf address else s.firstFreeSegment,
      s.nextFreePageIndex⟩ := by
  rw [Heap.free, relinked]

/-- The link of the free segment before a live one leads past it. -/
theorem Holds.lt_nextFree (h : Holds base s (l₁ ++ c :: l₂) loose) (hlive : c.free = false)
    {x : Nat} (hx : (frees l₁).getLast? = some x) :
    c.header < s.memory.read x .nextFreeSegment := by
  have hchain := h.freeChain
  rw [frees_append, frees_cons_of_live hlive] at hchain
  obtain ⟨y, h₁, h₂⟩ := follows_append.mp hchain
  obtain ⟨z, l, hl, hlt⟩ := h.layout.frees_after hlive
  rw [h₁.next_getLast hx]
  rw [hl] at h₂
  rw [h₂.1]
  exact hlt

/-- The segments and the address behind the stale link of the freed one do not overlap. -/
theorem Holds.exists_separated (h : Holds base s (l₁ ++ c :: l₂) loose)
    (hlinks : FreeLinks s.memory l₁ c l₂ loose) :
    ∃ A, Separated A ∧ (∀ g ∈ l₁ ++ c :: l₂ ++ loose, g.header ∈ A) ∧
      (s.memory.read c.header .nextFreeSegment = 0 ∨
        s.memory.read c.header .nextFreeSegment ∈ A) := by
  have hsep := h.layout.separated
  rcases hlinks.clear with h0 | ⟨hfits, hapart, hothers⟩
  · exact ⟨_, hsep, fun g hg => Layout.mem_headers hg, .inl h0⟩
  · refine ⟨insert (s.memory.read c.header .nextFreeSegment)
      {x | ∃ g ∈ l₁ ++ c :: l₂ ++ loose, g.header = x}, ?_,
      fun g hg => Set.mem_insert_of_mem _ ⟨g, hg, rfl⟩, .inr (Set.mem_insert _ _)⟩
    apply (hsep.mono fun x hx => .inr hx).insert hfits
    rintro x ⟨g, hg, rfl⟩
    by_cases hgc : g = c
    · exact .inr (hgc ▸ hapart)
    · apply hothers
      simp only [List.mem_append, List.mem_cons] at hg ⊢
      tauto

theorem Holds.relinkEffect (h : Holds base s (l₁ ++ c :: l₂) loose) (hlive : c.free = false)
    (hlinks : FreeLinks s.memory l₁ c l₂ loose) :
    RelinkEffect s.memory (relinked c.header s.memory) l₁ c (l₁ ++ l₂ ++ loose) := by
  have hlayout : Layout base (s.nextFreePageIndex * PGSIZE) (l₁ ++ [c] ++ l₂) loose := by
    simpa using h.layout
  have hc : ∀ k ∈ l₁ ++ l₂ ++ loose, k.header ≠ c.header :=
    fun k hk => hlayout.header_ne hk (by simp)
  obtain ⟨A, hA, hsegments, hnf⟩ := h.exists_separated hlinks
  set m := s.memory
  have hcA : c.header ∈ A := hsegments c (by simp)
  have hmem : ∀ k ∈ l₁ ++ l₂ ++ loose, k.header ∈ A := by
    intro k hk
    apply hsegments
    simp only [List.mem_append, List.mem_cons] at hk ⊢
    tauto
  have hnfc : m.read c.header .nextFreeSegment = 0 ∨
      c.header ≠ m.read c.header .nextFreeSegment := by
    rcases hlinks.clear with h0 | ⟨-, hapart, -⟩
    · exact .inl h0
    · right
      rcases hapart with hlt | hlt <;> omega
  have hread₀ : ∀ x ∈ A, ∀ f, (m.write c.header .free 1).read x f =
      if x = c.header ∧ f = .free then 1 else m.read x f :=
    fun x hx f => hA.read_write m hx hcA f .free 1
  have hread₁ : ∀ x ∈ A, ∀ f, (relinkNextFree c.header (m.write c.header .free 1)).read x f =
      if f = .previousFreeSegment ∧ x ≠ 0 ∧ x = m.read c.header .nextFreeSegment ∧
        m.read x .previousFreeSegment < c.header then c.header
      else (m.write c.header .free 1).read x f := by
    intro x hx f
    have hnf₀ : (m.write c.header .free 1).read c.header .nextFreeSegment =
        m.read c.header .nextFreeSegment := by simp [hread₀ _ hcA]
    rw [relinkNextFree_read hA _ hx, hnf₀, hread₀ _ hx]
    · simp
    · rw [hnf₀]
      rcases hnf with h0 | hnf
      · exact .inl h0
      · exact .inr (.inl hnf)
  have hpf : m.read c.header .previousFreeSegment = 0 ∨
      m.read c.header .previousFreeSegment ∈ A := by
    cases hl : (frees l₁).getLast? with
    | none =>
        rcases hlinks.noFree (List.getLast?_eq_none_iff.mp hl) with h0 | ⟨k, hk, hpf, -⟩
        · exact .inl h0
        · exact .inr (hpf ▸ hmem k hk)
    | some x =>
        obtain ⟨g, hg, -, rfl⟩ := mem_frees.mp (List.mem_of_getLast? hl)
        exact .inr ((hlinks.free _ hl).2 ▸ hmem g (by simp [hg]))
  have hpf₁ : (relinkNextFree c.header (m.write c.header .free 1)).read c.header
      .previousFreeSegment = m.read c.header .previousFreeSegment := by
    rw [hread₁ _ hcA, if_neg, hread₀ _ hcA]
    · simp
    · rintro ⟨-, h0, heq, -⟩
      rcases hnfc with h | h
      · exact h0 (heq.trans h)
      · exact h heq
  have hread : ∀ x ∈ A, ∀ f, (relinked c.header m).read x f =
      if f = .nextFreeSegment ∧ x ≠ 0 ∧ x = m.read c.header .previousFreeSegment ∧
        c.header < m.read x .nextFreeSegment then c.header
      else (relinkNextFree c.header (m.write c.header .free 1)).read x f := by
    intro x hx f
    rw [relinked, relinkPreviousFree_read hA _ hx, hpf₁, hread₁ _ hx .nextFreeSegment,
      hread₀ _ hx]
    · simp
    · rw [hpf₁]
      rcases hpf with h0 | hpf
      · exact .inl h0
      · exact .inr (.inl hpf)
  have hlast : ∀ k ∈ l₁ ++ l₂ ++ loose, (k.header ≠ 0 ∧
      k.header = m.read c.header .previousFreeSegment ∧
      c.header < m.read k.header .nextFreeSegment) ↔
      (frees l₁).getLast? = some k.header := by
    intro k hk
    constructor
    · rintro ⟨h0, hpf, hlt⟩
      cases hl : (frees l₁).getLast? with
      | none =>
          rcases hlinks.noFree (List.getLast?_eq_none_iff.mp hl) with hpf0 | ⟨g, -, hg, hle⟩
          · exact absurd (hpf.trans hpf0) h0
          · rw [hpf, hg] at hlt
            omega
      | some x => rw [hpf, (hlinks.free x hl).2]
    · intro hl
      obtain ⟨h0, hpf⟩ := hlinks.free _ hl
      exact ⟨h0, hpf.symm, h.lt_nextFree hlive hl⟩
  constructor
  · intro k hk
    constructor <;> simp [hread _ (hmem k hk), hread₁ _ (hmem k hk), hread₀ _ (hmem k hk),
      hc k hk]
  · simp [hread _ hcA, hread₁ _ hcA, hread₀ _ hcA]
  · simp [hread _ hcA, hread₁ _ hcA, hread₀ _ hcA]
  · simp [hread _ hcA, hread₁ _ hcA, hread₀ _ hcA]
  · intro k hk
    have hkA : k.header ∈ A := by
      rcases List.mem_cons.mp hk with rfl | hk
      · exact hcA
      · exact hmem k hk
    simp [hread _ hkA, hread₁ _ hkA, hread₀ _ hkA]
  · intro k hk
    rw [hread _ (hmem k hk), hread₁ _ (hmem k hk), hread₀ _ (hmem k hk)]
    simp only [true_and, hlast k hk]
    simp
  · rw [hread _ hcA, if_neg, hread₁ _ hcA, hread₀ _ hcA]
    · simp
    · rintro ⟨-, h0, heq, -⟩
      cases hl : (frees l₁).getLast? with
      | none =>
          rcases hlinks.noFree (List.getLast?_eq_none_iff.mp hl) with hpf0 | ⟨k, hk, hpf, -⟩
          · exact h0 (heq.trans hpf0)
          · exact hc k hk (heq.trans hpf).symm
      | some x =>
          obtain ⟨g, hg, -, rfl⟩ := mem_frees.mp (List.mem_of_getLast? hl)
          exact hc g (by simp [hg]) (heq.trans (hlinks.free _ hl).2).symm
  · intro k hk
    rw [hread _ (hmem k hk), hread₁ _ (hmem k hk), hread₀ _ (hmem k hk)]
    simp
  · rw [hread _ hcA, if_neg (by simp)]
    exact hpf₁

end Relink

section Absorb

variable {base top : Nat} {s : HeapState} {m : Memory} {l₁ l₂ loose : List Segment}
  {a b c : Segment}

/-- What one branch of `CombineFreeSegments` does to the headers of a layout. -/
structure AbsorbEffect (m m' : Memory) (a b : Segment) (others : List Segment) : Prop where
  keeps : ∀ k ∈ others, Keeps m m' k.header
  length : m'.read a.header .memoryLength = a.size + (b.size + 24)
  next : m'.read a.header .nextSegment = m.read b.header .nextSegment
  flag : m'.read a.header .free = m.read a.header .free
  nextFree : ∀ k ∈ others, m'.read k.header .nextFreeSegment = m.read k.header .nextFreeSegment
  nextFreeSelf : m'.read a.header .nextFreeSegment = m.read b.header .nextFreeSegment
  previousFree : ∀ k ∈ a :: others, m'.read k.header .previousFreeSegment =
    if k.header = m.read b.header .nextSegment ∨ k.header = m.read b.header .nextFreeSegment
    then a.header else m.read k.header .previousFreeSegment
  previous : ∀ k ∈ a :: others, m'.read k.header .previousSegment =
    if k.header = m.read b.header .nextSegment then a.header
    else m.read k.header .previousSegment

theorem Chained.absorbEffect (h : Chained base m (l₁ ++ a :: b :: l₂) loose)
    (hlayout : Layout base top (l₁ ++ a :: b :: l₂) loose)
    (ha : a.free = true) (hb : b.free = true) (hadj : a.finish = b.header)
    (hnextFree : Follows (m.read · .nextFreeSegment) (m.read b.header .nextFreeSegment)
      (frees l₂) 0) :
    AbsorbEffect m (absorb a.header b.header m) a b (l₁ ++ l₂ ++ loose) := by
  have hlayout' : Layout base top (l₁ ++ [a, b] ++ l₂) loose := by simpa using hlayout
  have hha : ∀ k ∈ l₁ ++ l₂ ++ loose, k.header ≠ a.header :=
    fun k hk => hlayout'.header_ne hk (by simp)
  have hmem : ∀ k ∈ l₁ ++ l₂ ++ loose, k.header ∈ Layout.headers (l₁ ++ [a, b] ++ l₂) loose :=
    fun k hk => Layout.mem_headers_of_other hk
  have haA : a.header ∈ Layout.headers (l₁ ++ [a, b] ++ l₂) loose :=
    Layout.mem_headers (by simp)
  have hbA : b.header ∈ Layout.headers (l₁ ++ [a, b] ++ l₂) loose :=
    Layout.mem_headers (by simp)
  have hab : a.header < b.header := a.header_lt_finish.trans_eq hadj
  have hnextA : m.read b.header .nextSegment ∈ Layout.headers (l₁ ++ [a, b] ++ l₂) loose := by
    have hnext := h.next
    rw [List.map_append, List.map_cons, List.map_cons, follows_append_cons] at hnext
    rcases hnext.2.2.start_mem with h0 | hmem
    · exact .inl h0
    · obtain ⟨k, hk, hkn⟩ := List.mem_map.mp hmem
      exact .inr ⟨k, by simp [hk], hkn⟩
  have hnextFreeA : m.read b.header .nextFreeSegment ∈
      Layout.headers (l₁ ++ [a, b] ++ l₂) loose := by
    rcases hnextFree.start_mem with h0 | hmem
    · exact .inl h0
    · obtain ⟨k, hk, -, hkn⟩ := mem_frees.mp hmem
      exact .inr ⟨k, by simp [hk], hkn⟩
  have hread := fun x hx =>
    absorb_read (x := x) hlayout'.separated haA hbA hab.ne hnextA hnextFreeA hx
  have hlen : u32 (a.size + (b.size + headerSize)) = a.size + (b.size + 24) := by
    have hfin := (hlayout.inside b (by simp)).2
    have hlimit := hlayout.limit
    simp only [Segment.finish, headerSize] at hfin hadj
    exact u32_of_lt (by simp only [headerSize]; omega)
  constructor
  · intro k hk
    constructor <;> simp [hread _ (hmem k hk), hha k hk]
  · simp [hread _ haA, h.length a (by simp) ha, h.length b (by simp) hb, hlen]
  · simp [hread _ haA]
  · simp [hread _ haA]
  · intro k hk
    simp [hread _ (hmem k hk), hha k hk]
  · simp [hread _ haA]
  · intro k hk
    rcases List.mem_cons.mp hk with rfl | hk
    · rw [hread _ haA]
    · rw [hread _ (hmem k hk)]
  · intro k hk
    rcases List.mem_cons.mp hk with rfl | hk
    · rw [hread _ haA]
    · rw [hread _ (hmem k hk)]

/-- Merging two neighbouring free segments, of which the first is linked to the free list
and the second links on, keeps the layout. -/
theorem Chained.absorb {first index : Nat}
    (h : Chained base m (l₁ ++ a :: b :: l₂) loose)
    (hlayout : Layout base (index * PGSIZE) (l₁ ++ a :: b :: l₂) loose)
    (ha : a.free = true) (hb : b.free = true) (hadj : a.finish = b.header)
    (hbefore : Follows (m.read · .nextFreeSegment) first (frees l₁) a.header)
    (hnextFree : Follows (m.read · .nextFreeSegment) (m.read b.header .nextFreeSegment)
      (frees l₂) 0) :
    Holds base ⟨Heap.absorb a.header b.header m, first, index⟩
      (l₁ ++ a.absorb b :: l₂) loose := by
  have he := h.absorbEffect hlayout ha hb hadj hnextFree
  refine ⟨hlayout.absorb hadj, ?_, ?_⟩
  · have hold : Chained base m (l₁ ++ [a, b] ++ l₂) loose := by simpa using h
    have hreplace : Chained base (Heap.absorb a.header b.header m)
        (l₁ ++ [a.absorb b] ++ l₂) loose := by
      apply hold.replace
      · exact he.keeps
      · rintro x y ⟨rfl, -, hy⟩
        exact ⟨rfl, he.next.trans hy⟩
      · intro g hg
        rw [List.mem_singleton.mp hg, Segment.absorb_header, he.flag]
        simpa [ha] using h.flag a (by simp)
      · intro g hg _
        rw [List.mem_singleton.mp hg]
        exact he.length
      · intro g hg hlive
        rw [List.mem_singleton.mp hg] at hlive
        exact absurd hlive (by simp)
    simpa using hreplace
  · rw [frees_append, frees_cons_of_free (by simp), follows_append_cons]
    constructor
    · exact follows_frees_congr hbefore fun k hk => he.nextFree k (by simp [hk])
    · rw [Segment.absorb_header]
      change Follows _ ((Heap.absorb a.header b.header m).read a.header .nextFreeSegment) _ 0
      rw [he.nextFreeSelf]
      exact follows_frees_congr hnextFree fun k hk => he.nextFree k (by simp [hk])

end Absorb

section Release

variable {base top : Nat} {s : HeapState} {m : Memory} {l₁ l₂ loose : List Segment}
  {c : Segment}

/-- With the flag set and the free links repaired, the chain holds the freed segment. -/
theorem Holds.chained_relinked (h : Holds base s (l₁ ++ c :: l₂) loose)
    (hlive : c.free = false) (hlinks : FreeLinks s.memory l₁ c l₂ loose) :
    Chained base (relinked c.header s.memory) (l₁ ++ c.release :: l₂) loose := by
  have he := h.relinkEffect hlive hlinks
  have hold : Chained base s.memory (l₁ ++ [c] ++ l₂) loose := by simpa using h.chained
  have hreplace : Chained base (relinked c.header s.memory) (l₁ ++ [c.release] ++ l₂) loose := by
    apply hold.replace
    · exact he.keeps
    · rintro x y ⟨rfl, hy⟩
      exact ⟨rfl, he.next.trans hy⟩
    · simp [he.flag]
    · simp [he.length, hlinks.length]
    · simp
  simpa using hreplace

/-- The free list now leads to the freed segment. -/
theorem Holds.free_before (h : Holds base s (l₁ ++ c :: l₂) loose) (hlive : c.free = false)
    (hlinks : FreeLinks s.memory l₁ c l₂ loose) :
    Follows ((relinked c.header s.memory).read · .nextFreeSegment)
      (if c.header < s.firstFreeSegment then c.header else s.firstFreeSegment)
      (frees l₁) c.header := by
  have he := h.relinkEffect hlive hlinks
  have hchain := h.freeChain
  have hnodup := h.layout.nodup_frees
  rw [frees_append, frees_cons_of_live hlive] at hchain hnodup
  obtain ⟨y, h₁, h₂⟩ := follows_append.mp hchain
  apply h₁.retarget
  · exact hnodup.sublist (List.sublist_append_left _ _)
  · cases hl : frees l₁ with
    | nil =>
        obtain ⟨z, l, hz, hlt⟩ := h.layout.frees_after hlive
        rw [hl] at h₁
        rw [hz] at h₂
        have hfirst : s.firstFreeSegment = z := h₁.trans h₂.1
        rw [if_pos (hfirst ▸ hlt), if_pos rfl]
    | cons x l =>
        obtain ⟨g, hg, -, rfl⟩ := mem_frees.mp (hl ▸ List.mem_cons_self : x ∈ frees l₁)
        rw [hl] at h₁
        have hlt := h.layout.header_lt_of_mem.1 g hg
        rw [if_neg (by rw [h₁.1]; omega), if_neg (by simp)]
  · intro x hx
    obtain ⟨g, hg, -, rfl⟩ := mem_frees.mp (List.mem_of_getLast? hx)
    rw [he.nextFree g (by simp [hg]), if_pos hx]
  · intro x hx hne
    obtain ⟨g, hg, -, rfl⟩ := mem_frees.mp hx
    rw [he.nextFree g (by simp [hg]), if_neg hne]

/-- The free list behind the freed segment is as before. -/
theorem Holds.free_after (h : Holds base s (l₁ ++ c :: l₂) loose) (hlive : c.free = false)
    (hlinks : FreeLinks s.memory l₁ c l₂ loose) :
    ∃ y, (frees l₂).head? = some y ∧
      Follows ((relinked c.header s.memory).read · .nextFreeSegment) y (frees l₂) 0 := by
  have he := h.relinkEffect hlive hlinks
  have hchain := h.freeChain
  rw [frees_append, frees_cons_of_live hlive] at hchain
  obtain ⟨y, -, h₂⟩ := follows_append.mp hchain
  obtain ⟨z, l, hz, -⟩ := h.layout.frees_after hlive
  refine ⟨y, h₂.head_eq (by simp [hz]), follows_frees_congr h₂ ?_⟩
  intro k hk
  rw [he.nextFree k (by simp [hk]), if_neg]
  intro hlast
  obtain ⟨g, hg, -, hgk⟩ := mem_frees.mp (List.mem_of_getLast? hlast)
  have hlt := h.layout.header_lt hg hk
  omega

/-- Writing a field of a segment, read field by field. -/
theorem Layout.read_write {chain : List Segment} (h : Layout base top chain loose)
    {g k : Segment} (hg : g ∈ chain ++ loose) (hk : k ∈ chain ++ loose) (m : Memory)
    (f e : Field) (v : Nat) :
    (m.write g.header e v).read k.header f =
      if k.header = g.header ∧ f = e then v else m.read k.header f :=
  h.separated.read_write m (Layout.mem_headers hk) (Layout.mem_headers hg) f e v

/-- Writing a back link keeps the chain. -/
theorem Chained.write_previousSegment {chain : List Segment} (h : Chained base m chain loose)
    (hlayout : Layout base top chain loose) {g : Segment} (hg : g ∈ chain ++ loose) (v : Nat) :
    Chained base (m.write g.header .previousSegment v) chain loose := by
  apply h.congr
  intro k hk
  constructor <;> simp [hlayout.read_write hg hk]

/-- A merge into `a` makes the free back link of the segment behind it, and of the free
segment behind it, lead to `a`; when there is none it writes through the null pointer. -/
def MergedBack (m m' : Memory) (l₁ : List Segment) (a : Segment) (l₂ : List Segment) : Prop :=
  ∀ k ∈ l₁ ++ a :: l₂, m'.read k.header .previousFreeSegment =
    if k.header = (l₂.map (·.header)).head?.getD 0 ∨ k.header = (frees l₂).head?.getD 0
    then a.header else m.read k.header .previousFreeSegment

theorem Chained.mergedBack {a b : Segment} (h : Chained base m (l₁ ++ a :: b :: l₂) loose)
    (hlayout : Layout base top (l₁ ++ a :: b :: l₂) loose)
    (ha : a.free = true) (hb : b.free = true) (hadj : a.finish = b.header)
    (hnextFree : Follows (m.read · .nextFreeSegment) (m.read b.header .nextFreeSegment)
      (frees l₂) 0) :
    MergedBack m (Heap.absorb a.header b.header m) l₁ (a.absorb b) l₂ := by
  have he := h.absorbEffect hlayout ha hb hadj hnextFree
  have hnext := h.next
  rw [List.map_append, List.map_cons, List.map_cons, follows_append_cons] at hnext
  have hnextSegment := hnext.2.2.eq_head?_getD
  have hnextFreeSegment := hnextFree.eq_head?_getD
  have hothers : ∀ k ∈ a :: (l₁ ++ l₂ ++ loose),
      (Heap.absorb a.header b.header m).read k.header .previousFreeSegment =
        if k.header = (l₂.map (·.header)).head?.getD 0 ∨ k.header = (frees l₂).head?.getD 0
        then a.header else m.read k.header .previousFreeSegment := by
    intro k hk
    rw [← hnextSegment, ← hnextFreeSegment]
    exact he.previousFree k hk
  intro k hk
  rcases List.mem_append.mp hk with hk | hk
  · exact hothers k (by simp [hk])
  · rcases List.mem_cons.mp hk with rfl | hk
    · exact hothers a (by simp)
    · exact hothers k (by simp [hk])

theorem MergedBack.of_eq {m₀ m' : Memory} {a : Segment} (h : MergedBack m m' l₁ a l₂)
    (heq : ∀ k ∈ l₁ ++ a :: l₂,
      m.read k.header .previousFreeSegment = m₀.read k.header .previousFreeSegment) :
    MergedBack m₀ m' l₁ a l₂ := by
  intro k hk
  rw [h k hk, heq k hk]

section Next

variable {first : Nat} {g : Segment}

/-- `mergeNext` marks the segment behind the freed one and takes it over when it is free;
the null test of `CombineFreeSegments` keeps the first segment at address 0 as it is. -/
theorem Chained.mergeNext_eq (h : Chained base m (l₁ ++ c :: g :: l₂) loose)
    (hlayout : Layout base top (l₁ ++ c :: g :: l₂) loose) :
    Heap.mergeNext c.header m =
      if g.free = true ∧ c.header ≠ 0 then
        Heap.absorb c.header g.header (m.write g.header .previousSegment c.header)
      else m.write g.header .previousSegment c.header := by
  have hcg : c.header < g.header := hlayout.header_lt_of_mem.2 g (by simp)
  have hnext : m.read c.header .nextSegment = g.header := by
    have hfollows := h.next
    rw [List.map_append, List.map_cons, List.map_cons, follows_append_cons] at hfollows
    exact hfollows.2.1
  have hread := fun k hk f => hlayout.read_write (g := g) (k := k) (by simp) hk m f
    .previousSegment c.header
  have hnext' : (m.write g.header .previousSegment c.header).read c.header .nextSegment =
      g.header := by
    rw [hread c (by simp), if_neg (by simp [hcg.ne]), hnext]
  have hflag : (m.write g.header .previousSegment c.header).read g.header .free ≠ 0 ↔
      g.free = true := by
    rw [hread g (by simp), if_neg (by simp)]
    exact h.flag g (by simp)
  rw [Heap.mergeNext, hnext, if_pos (by omega)]
  simp only [hnext', hflag]
  by_cases hfree : g.free = true
  · by_cases h0 : c.header = 0
    · rw [if_pos hfree, if_neg (fun hand => hand.2 h0), combineFreeSegments, if_pos h0]
    · rw [if_pos hfree, if_pos ⟨hfree, h0⟩, combineFreeSegments, if_neg h0,
        if_neg (by omega), if_pos hcg]
  · rw [if_neg hfree, if_neg (fun hand => hfree hand.1)]

/-- What marking the segment behind the freed one leaves. -/
structure Marked (base first : Nat) (m m' : Memory) (l₁ : List Segment) (c g : Segment)
    (l₂ loose : List Segment) : Prop where
  chained : Chained base m' (l₁ ++ c :: g :: l₂) loose
  before : Follows (m'.read · .nextFreeSegment) first (frees l₁) c.header
  after : Follows (m'.read · .nextFreeSegment) ((frees (g :: l₂)).head?.getD 0)
    (frees (g :: l₂)) 0
  nextFree : m'.read c.header .nextFreeSegment = m.read c.header .nextFreeSegment
  previous : m'.read c.header .previousSegment = m.read c.header .previousSegment
  previousFree : ∀ k ∈ l₁ ++ c :: g :: l₂,
    m'.read k.header .previousFreeSegment = m.read k.header .previousFreeSegment

theorem Chained.mark (h : Chained base m (l₁ ++ c :: g :: l₂) loose)
    (hlayout : Layout base top (l₁ ++ c :: g :: l₂) loose)
    (hbefore : Follows (m.read · .nextFreeSegment) first (frees l₁) c.header)
    (hafter : ∃ y, (frees (g :: l₂)).head? = some y ∧
      Follows (m.read · .nextFreeSegment) y (frees (g :: l₂)) 0) :
    Marked base first m (m.write g.header .previousSegment c.header) l₁ c g l₂ loose := by
  have hg : g ∈ l₁ ++ c :: g :: l₂ ++ loose := by simp
  have hcg : c.header < g.header := hlayout.header_lt_of_mem.2 g (by simp)
  have hread : ∀ k ∈ l₁ ++ c :: g :: l₂, ∀ f, f ≠ .previousSegment →
      (m.write g.header .previousSegment c.header).read k.header f = m.read k.header f := by
    intro k hk f hf
    rw [hlayout.read_write hg (List.mem_append_left _ hk), if_neg (fun hand => hf hand.2)]
  constructor
  · exact h.write_previousSegment hlayout hg c.header
  · exact follows_frees_congr hbefore fun k hk => hread k (by simp [hk]) _ (by decide)
  · obtain ⟨y, hy, hafter⟩ := hafter
    rw [hy]
    apply follows_frees_congr hafter
    intro k hk
    exact hread k (List.mem_append_right _ (List.mem_cons_of_mem _ hk)) _ (by decide)
  · exact hread c (by simp) _ (by decide)
  · rw [hlayout.read_write hg (by simp), if_neg (by simp [hcg.ne])]
  · exact fun k hk => hread k hk _ (by decide)

end Next

/-- How `mergeNext` goes on from the freed segment `c` and those behind it: to `c'` and
`l₂'`, with what becomes of the free back links. -/
inductive NextMerged (m m' : Memory) (y : Nat) (l₁ : List Segment) (c : Segment) :
    List Segment → Segment → List Segment → Prop
  | keep {g : Segment} {l₂ : List Segment} (hkept : ¬ (g.free = true ∧ c.header ≠ 0))
      (hhead : (frees (g :: l₂)).head? = some y)
      (hback : ∀ k ∈ l₁ ++ c :: g :: l₂,
        m'.read k.header .previousFreeSegment = m.read k.header .previousFreeSegment) :
      NextMerged m m' y l₁ c (g :: l₂) c (g :: l₂)
  | merge {g : Segment} {l₂ : List Segment} (hfree : g.free = true) (h0 : c.header ≠ 0)
      (hadj : c.finish = g.header) (hback : MergedBack m m' l₁ (c.absorb g) l₂) :
      NextMerged m m' y l₁ c (g :: l₂) (c.absorb g) l₂

/-- What `mergeNext` leaves: the freed segment, alone or with the free one behind it. -/
theorem Holds.mergeNext (h : Holds base s (l₁ ++ c :: l₂) loose) (hlive : c.free = false)
    (hlinks : FreeLinks s.memory l₁ c l₂ loose) :
    ∃ c' l₂', c'.header = c.header ∧ c'.free = true ∧
      (∀ g ∈ l₂, g.free = false → g ∈ l₂') ∧
      Holds base ⟨mergeNext c.header (relinked c.header s.memory),
        if c.header < s.firstFreeSegment then c.header else s.firstFreeSegment,
        s.nextFreePageIndex⟩ (l₁ ++ c' :: l₂') loose ∧
      ((mergeNext c.header (relinked c.header s.memory)).read c.header .previousSegment =
        s.memory.read c.header .previousSegment) ∧
      NextMerged (relinked c.header s.memory)
        (mergeNext c.header (relinked c.header s.memory))
        (s.memory.read c.header .nextFreeSegment) l₁ c.release l₂ c' l₂' := by
  have he := h.relinkEffect hlive hlinks
  have hbefore := h.free_before hlive hlinks
  have hafter := h.free_after hlive hlinks
  have hchained := h.chained_relinked hlive hlinks
  have hlayout := h.layout.release
  obtain ⟨g, l₃, rfl⟩ : ∃ g l, l₂ = g :: l := by
    cases l₂ with
    | nil => simp at hafter
    | cons g l => exact ⟨g, l, rfl⟩
  have hadj : c.release.finish = g.header := by
    have hfollows := h.chained.next
    rw [List.map_append, List.map_cons, List.map_cons, follows_append_cons] at hfollows
    rw [Segment.release_finish, ← h.chained.adjacent c (by simp) hlive]
    exact hfollows.2.1
  have hprevious := he.previous c (by simp)
  have hnextFree := he.nextFreeSelf
  generalize relinked c.header s.memory = m at hchained hbefore hafter hprevious hnextFree ⊢
  have hmark : Marked base _ m (m.write g.header .previousSegment c.header) l₁ c.release g l₃
      loose := hchained.mark hlayout hbefore hafter
  have hmarkPrevious : (m.write g.header .previousSegment c.header).read c.header
      .previousSegment = m.read c.header .previousSegment := hmark.previous
  have heq : Heap.mergeNext c.header m = _ := hchained.mergeNext_eq hlayout
  rw [Segment.release_header] at heq
  by_cases hcase : g.free = true ∧ c.header ≠ 0
  · obtain ⟨hfree, h0⟩ := hcase
    have hafter' := hmark.after
    rw [frees_cons_of_free hfree] at hafter'
    rw [heq, if_pos ⟨hfree, h0⟩]
    refine ⟨c.release.absorb g, l₃, rfl, rfl, ?_, ?_, ?_, .merge hfree h0 hadj ?_⟩
    · intro k hk hklive
      rcases List.mem_cons.mp hk with rfl | hk
      · simp [hfree] at hklive
      · exact hk
    · exact hmark.chained.absorb hlayout rfl hfree hadj hmark.before hafter'.2
    · have heffect := hmark.chained.absorbEffect hlayout rfl hfree hadj hafter'.2
      have hlinks' := hmark.chained.next
      rw [List.map_append, List.map_cons, List.map_cons, follows_append_cons] at hlinks'
      have hne : c.header ≠
          (m.write g.header .previousSegment c.header).read g.header .nextSegment := by
        rcases hlinks'.2.2.start_mem with hstop | hmem
        · exact fun heq => h0 (heq.trans hstop)
        · obtain ⟨k, hk, hkn⟩ := List.mem_map.mp hmem
          intro heq
          have hlt := h.layout.header_lt_of_mem.2 k (by simp [hk])
          exact hlt.ne (heq.trans hkn.symm)
      rw [← hprevious, ← hmarkPrevious]
      exact (heffect.previous c.release (by simp)).trans (if_neg hne)
    · apply (hmark.chained.mergedBack hlayout rfl hfree hadj hafter'.2).of_eq
      intro k hk
      rcases List.mem_append.mp hk with hk | hk
      · exact hmark.previousFree k (by simp [hk])
      · rcases List.mem_cons.mp hk with rfl | hk
        · exact hmark.previousFree c.release (by simp)
        · exact hmark.previousFree k (by simp [hk])
  · have hhead : (frees (g :: l₃)).head? = some (s.memory.read c.header .nextFreeSegment) := by
      rcases hlinks.nextFree with ⟨h0, k, l, hkl, hfree⟩ | hhead
      · obtain ⟨rfl, rfl⟩ := List.cons.inj hkl
        exact absurd ⟨hfree, h0⟩ hcase
      · exact hhead
    rw [heq, if_neg hcase]
    refine ⟨c.release, g :: l₃, rfl, rfl, fun k hk _ => hk, ⟨hlayout, hmark.chained, ?_⟩, ?_,
      .keep hcase hhead hmark.previousFree⟩
    · rw [frees_append, frees_cons_of_free (by simp), follows_append_cons]
      refine ⟨hmark.before, ?_⟩
      have hafter' := hmark.after
      rw [hhead, Option.getD_some, ← hnextFree] at hafter'
      change Follows _
        ((m.write g.header .previousSegment c.header).read c.header .nextFreeSegment) _ 0
      rw [show (m.write g.header .previousSegment c.header).read c.header .nextFreeSegment =
        m.read c.header .nextFreeSegment from hmark.nextFree]
      exact hafter'
    · exact hmarkPrevious.trans hprevious

/-- How `mergePrevious` goes on from the freed segment `c` between `l₁` and `l₂`: to a chain,
with what becomes of the free back links. -/
inductive PreviousMerged (m m' : Memory) :
    List Segment → Segment → List Segment → List Segment → Prop
  | keep {l₁ l₂ : List Segment} {c : Segment}
      (hkept : ∀ k, l₁.getLast? = some k → k.free = true →
        m.read c.header .previousSegment = k.header → k.header = 0)
      (hback : ∀ k ∈ l₁ ++ c :: l₂,
        m'.read k.header .previousFreeSegment = m.read k.header .previousFreeSegment) :
      PreviousMerged m m' l₁ c l₂ (l₁ ++ c :: l₂)
  | merge {l₁ l₂ : List Segment} {k c : Segment} (hfree : k.free = true)
      (hadj : k.finish = c.header) (hback : MergedBack m m' l₁ (k.absorb c) l₂) :
      PreviousMerged m m' (l₁ ++ [k]) c l₂ (l₁ ++ k.absorb c :: l₂)

/-- The link that `mergePrevious` writes was there before. -/
theorem Holds.read_next {first index : Nat} {k : Segment}
    (h : Holds base ⟨m, first, index⟩ (l₁ ++ k :: c :: l₂) loose) {g : Segment}
    (hg : g ∈ l₁ ++ k :: c :: l₂ ++ loose) (f : Field) :
    (m.write k.header .nextSegment c.header).read g.header f = m.read g.header f := by
  have hnext : m.read k.header .nextSegment = c.header := by
    have hfollows := h.chained.next
    rw [List.map_append, List.map_cons, List.map_cons, follows_append_cons] at hfollows
    exact hfollows.2.1
  rw [h.layout.read_write (by simp) hg]
  split
  · rename_i heq
    rw [heq.1, heq.2, hnext]
  · rfl

/-- `mergePrevious` links the segment before to the freed one and lets it take over the freed
one when it is free. -/
theorem Holds.mergePrevious_eq {first index : Nat} {k : Segment}
    (h : Holds base ⟨m, first, index⟩ (l₁ ++ k :: c :: l₂) loose)
    (hps : m.read c.header .previousSegment = k.header) (h0 : k.header ≠ 0) :
    Heap.mergePrevious c.header m =
      if k.free = true then
        Heap.absorb k.header c.header (m.write k.header .nextSegment c.header)
      else m.write k.header .nextSegment c.header := by
  have hkc : k.header < c.header :=
    (List.pairwise_cons.mp (List.pairwise_append.mp h.layout.sorted).2.1).1 c (by simp)
  have hread := fun g hg => h.read_next (g := g) hg
  have hps' := hread c (by simp) .previousSegment
  rw [hps] at hps'
  have hflag : (m.write k.header .nextSegment c.header).read k.header .free ≠ 0 ↔
      k.free = true := by
    rw [hread k (by simp)]
    exact h.chained.flag k (by simp)
  rw [Heap.mergePrevious, hps, if_pos h0]
  simp only [hps', hflag]
  by_cases hfree : k.free = true
  · rw [if_pos hfree, if_pos hfree, combineFreeSegments, if_neg (by omega), if_neg h0,
      if_neg (by omega)]
  · rw [if_neg hfree, if_neg hfree]

/-- `mergePrevious` merges the freed segment with a free one that ends where it begins. -/
theorem Holds.mergePrevious {first index : Nat} (hc : c.free = true)
    (h : Holds base ⟨m, first, index⟩ (l₁ ++ c :: l₂) loose)
    (hsegment : m.read c.header .previousSegment = 0 ∨
      ∃ k, l₁.getLast? = some k ∧ m.read c.header .previousSegment = k.header ∧
        (k.free = true → k.finish = c.header)) :
    ∃ chain, Holds base ⟨mergePrevious c.header m, first, index⟩ chain loose ∧
      (∀ g ∈ l₁ ++ l₂, g.free = false → g ∈ chain) ∧
      PreviousMerged m (mergePrevious c.header m) l₁ c l₂ chain := by
  by_cases h0 : m.read c.header .previousSegment = 0
  · rw [Heap.mergePrevious, if_neg (not_not.mpr h0)]
    exact ⟨_, h, fun g hg _ => mem_append_cons_of_mem hg,
      .keep (fun k _ _ hk => hk.symm.trans h0) fun _ _ => rfl⟩
  · obtain ⟨k, hlast, hps, hadj⟩ := hsegment.resolve_left h0
    obtain ⟨l₀, rfl⟩ := List.getLast?_eq_some_iff.mp hlast
    rw [List.append_assoc, List.singleton_append] at h
    have hread := fun g hg => h.read_next (g := g) hg
    have hholds := h.congr hread
    rw [h.mergePrevious_eq hps (hps ▸ h0)]
    by_cases hfree : k.free = true
    · rw [if_pos hfree]
      have hfreeChain := hholds.freeChain
      rw [frees_append, frees_cons_of_free hfree, frees_cons_of_free hc,
        follows_append_cons] at hfreeChain
      refine ⟨l₀ ++ k.absorb c :: l₂, ?_, ?_, .merge hfree (hadj hfree) ?_⟩
      · exact hholds.chained.absorb hholds.layout hfree hc (hadj hfree) hfreeChain.1
          hfreeChain.2.2
      · intro g hg hlive
        have hgk : g ≠ k := by
          rintro rfl
          simp [hfree] at hlive
        rw [List.append_assoc, List.singleton_append] at hg
        exact mem_append_cons_of_mem (mem_append_of_ne hg hgk)
      · apply (hholds.chained.mergedBack hholds.layout hfree hc (hadj hfree)
          hfreeChain.2.2).of_eq
        intro g hg
        rcases List.mem_append.mp hg with hg | hg
        · exact hread g (by simp [hg]) _
        · rcases List.mem_cons.mp hg with rfl | hg
          · exact hread k (by simp) _
          · exact hread g (by simp [hg]) _
    · rw [if_neg hfree]
      have heq : l₀ ++ k :: c :: l₂ = l₀ ++ [k] ++ c :: l₂ := by simp
      rw [heq] at hholds hread
      refine ⟨l₀ ++ [k] ++ c :: l₂, hholds, fun g hg _ => mem_append_cons_of_mem hg, .keep ?_ ?_⟩
      · intro e he hefree
        obtain rfl := Option.some.inj (hlast.symm.trans he)
        exact absurd hefree hfree
      · exact fun g hg => hread g (List.mem_append_left _ hg) _

/-- Freeing a live segment whose links are current keeps a layout, with the other live
segments as they were. -/
theorem Holds.free (h : Holds base s (l₁ ++ c :: l₂) loose) (hlive : c.free = false)
    (hlinks : FreeLinks s.memory l₁ c l₂ loose) :
    ∃ c' l₂' chain, Holds base (Heap.free (c.header + 24) s) chain loose ∧
      (∀ g ∈ l₁ ++ l₂, g.free = false → g ∈ chain) ∧
      Layout base (s.nextFreePageIndex * PGSIZE) (l₁ ++ c' :: l₂') loose ∧
      c'.header = c.header ∧ c'.free = true ∧
      NextMerged (relinked c.header s.memory)
        (Heap.mergeNext c.header (relinked c.header s.memory))
        (s.memory.read c.header .nextFreeSegment) l₁ c.release l₂ c' l₂' ∧
      PreviousMerged (Heap.mergeNext c.header (relinked c.header s.memory))
        (Heap.free (c.header + 24) s).memory l₁ c' l₂' chain := by
  have hheader : headerOf (c.header + 24) = c.header := by
    have hfin := (h.layout.inside c (by simp)).2
    have hlimit := h.layout.limit
    have hlt := c.header_lt_finish
    simp only [headerOf, headerSize, u32]
    omega
  obtain ⟨c', l₂', hc', hfree, hl₂, hholds, hprevious, hnext⟩ := h.mergeNext hlive hlinks
  obtain ⟨chain, hchain, hmem, hback⟩ := hholds.mergePrevious hfree (by
    rw [hc', hprevious]
    exact hlinks.segment)
  rw [hc'] at hchain hback
  rw [free_eq, hheader]
  refine ⟨c', l₂', chain, hchain, ?_, hholds.layout, hc', hfree, hnext, hback⟩
  intro g hg hglive
  apply hmem g _ hglive
  rcases List.mem_append.mp hg with hg | hg
  · exact List.mem_append_left _ hg
  · exact List.mem_append_right _ (hl₂ g hg hglive)

end Release

end NickOS3.Heap
