import NickOS3.Heap.Calls
import NickOS3.Heap.Free
import NickOS3.Heap.Pages

/-!
# Calls whose links are current

`malloc` and `free` trust the links in the headers they come across. `HeapCall.Current`
says, of the state before a call, that the links it reads lead where they should. Calls
of this kind keep a layout in which every live block has a segment of its own.
-/

namespace NickOS3.Heap

open Foundation

/-- The headers seen along `nextSegment` from the first header. -/
def HeapState.IsSegment (base : Nat) (s : HeapState) (x : Nat) : Prop :=
  Visits (s.memory.read · .nextSegment) 0 base x

/-- The headers seen along `nextFreeSegment` from `firstFreeSegment`. -/
def HeapState.OnFreeList (s : HeapState) (x : Nat) : Prop :=
  Visits (s.memory.read · .nextFreeSegment) 0 s.firstFreeSegment x

/-- A header on the chain, or of a live block. -/
def HeapRun.IsHeader (base : Nat) (r : HeapRun) (x : Nat) : Prop :=
  r.heap.IsSegment base x ∨ x + headerSize ∈ r.live.map Prod.fst

/-- The back link to the segment before `c` is null or current. -/
def HeapState.CurrentPrevious (base : Nat) (s : HeapState) (c : Nat) : Prop :=
  s.memory.read c .previousSegment = 0 ∨
    s.IsSegment base (s.memory.read c .previousSegment) ∧
    s.memory.read c .previousSegment < c ∧
    s.memory.read (s.memory.read c .previousSegment) .nextSegment = c

/-- The block fits into the segment with room for the header of the rest, and the back
links of the segment are current. -/
structure HeapState.CurrentMalloc (base : Nat) (s : HeapState) (size c : Nat) : Prop where
  room : size + headerSize ≤ s.memory.read c .memoryLength
  first : c = s.firstFreeSegment → s.memory.read c .previousFreeSegment = 0
  previousFree : c ≠ s.firstFreeSegment →
    s.memory.read c .previousFreeSegment ≠ 0 ∧
    s.OnFreeList (s.memory.read c .previousFreeSegment) ∧
    s.memory.read c .previousFreeSegment < c ∧
    s.memory.read (s.memory.read c .previousFreeSegment) .nextFreeSegment = c
  previous : s.CurrentPrevious base c

/-- The pages that `malloc` asks for hold the block and the segment behind it. -/
def FitsPages (size : Nat) : Prop :=
  headerSize + size + (if headerSize < size % PGSIZE then size % PGSIZE else 0) ≤
    extensionPages size * PGSIZE

instance (size : Nat) : Decidable (FitsPages size) := Nat.decLe _ _

/-- What `malloc` may rely on when it asks for new pages: the rounds of `palloc_heap` stay in
the table of the pool, and the frames run out or the pages hold what is put into them. -/
def HeapState.Extends (s : HeapState) (size : Nat) (frames : List Frame) : Prop :=
  s.StaysInTable (extensionPages size) frames ∧
    (frames.length < extensionPages size ∨ FitsPages size)

instance (s : HeapState) (size : Nat) (frames : List Frame) :
    Decidable (s.Extends size frames) :=
  inferInstanceAs (Decidable (_ ∧ _))

/-- The block at `h` is on the chain, its length is recorded, and its links are current;
the link to the next free segment may be stale where a merge overwrites it. -/
structure HeapRun.CurrentFree (base : Nat) (r : HeapRun) (h : Nat) : Prop where
  segment : r.heap.IsSegment base h
  length : r.heap.memory.read h .nextSegment =
    h + headerSize + r.heap.memory.read h .memoryLength
  clear : r.heap.memory.read h .nextFreeSegment = 0 ∨
    r.heap.memory.read h .nextFreeSegment + headerSize ≤ 4294967296 ∧
    Apart h (r.heap.memory.read h .nextFreeSegment) ∧
    ∀ x, r.IsHeader base x → x = r.heap.memory.read h .nextFreeSegment ∨
      Apart x (r.heap.memory.read h .nextFreeSegment)
  nextFree : h ≠ 0 ∧ r.heap.memory.read (r.heap.memory.read h .nextSegment) .free ≠ 0 ∨
    r.heap.OnFreeList (r.heap.memory.read h .nextFreeSegment) ∧
    h < r.heap.memory.read h .nextFreeSegment ∧
    ∀ x, r.heap.OnFreeList x → h < x → r.heap.memory.read h .nextFreeSegment ≤ x
  first : h < r.heap.firstFreeSegment →
    r.heap.memory.read h .previousFreeSegment = 0 ∨
    r.heap.memory.read h .previousFreeSegment ≠ h ∧
    r.IsHeader base (r.heap.memory.read h .previousFreeSegment) ∧
    r.heap.memory.read (r.heap.memory.read h .previousFreeSegment) .nextFreeSegment ≤ h
  previousFree : ¬ h < r.heap.firstFreeSegment →
    r.heap.memory.read h .previousFreeSegment ≠ 0 ∧
    r.heap.OnFreeList (r.heap.memory.read h .previousFreeSegment) ∧
    r.heap.memory.read h .previousFreeSegment < h ∧
    h < r.heap.memory.read (r.heap.memory.read h .previousFreeSegment) .nextFreeSegment
  previous : r.heap.CurrentPrevious base h
  adjacent : r.heap.memory.read h .previousSegment ≠ 0 →
    r.heap.memory.read (r.heap.memory.read h .previousSegment) .free ≠ 0 →
    r.heap.memory.read h .previousSegment + headerSize +
      r.heap.memory.read (r.heap.memory.read h .previousSegment) .memoryLength = h

/-- The segment where the search ends has room and current links, or else new pages can be
put behind it. -/
def HeapState.CurrentFit (base : Nat) (s : HeapState) (size : Nat) (frames : List Frame) :
    Prop :=
  ∀ c, firstFit s.memory size s.firstFreeSegment = some c →
    if s.memory.read c .memoryLength < size then s.Extends size frames
    else s.CurrentMalloc base size c

/-- What a call may rely on in the state before it. -/
def HeapCall.Current (base : Nat) (r : HeapRun) : HeapCall → Prop
  | .malloc size frames =>
      size ≤ 4294967288 ∧ r.heap.CurrentFit base (roundSize size) frames
  | .free address => r.CurrentFree base (headerOf address)

section Bridge

variable {base : Nat} {s : HeapState} {l₁ l₂ chain loose : List Segment} {c : Segment}

theorem zero_notMem_tail {l : List Nat} (h : l.Pairwise (· < ·)) : 0 ∉ l.tail := by
  cases l with
  | nil => simp
  | cons a l =>
      intro h0
      exact absurd ((List.pairwise_cons.mp h).1 0 h0) (Nat.not_lt_zero a)

theorem Layout.sorted_headers {top : Nat} (h : Layout base top chain loose) :
    (chain.map (·.header)).Pairwise (· < ·) :=
  List.pairwise_map.mpr h.sorted

theorem Layout.sorted_frees {top : Nat} (h : Layout base top chain loose) :
    (frees chain).Pairwise (· < ·) :=
  h.sorted_headers.sublist (List.filter_sublist.map _)

/-- The segments seen along `nextSegment` are those of the chain. -/
theorem Holds.isSegment_iff (h : Holds base s chain loose) {x : Nat} :
    s.IsSegment base x ↔ ∃ g ∈ chain, g.header = x := by
  have hne : chain.map (·.header) ≠ [] := by
    obtain ⟨l, g, rfl, -⟩ := h.layout.last
    simp
  rw [HeapState.IsSegment,
    h.chained.next.visits_iff hne (zero_notMem_tail h.layout.sorted_headers), List.mem_map]

/-- The segments seen along `nextFreeSegment` are the free ones of the chain. -/
theorem Holds.onFreeList_iff (h : Holds base s chain loose) {x : Nat} :
    s.OnFreeList x ↔ x ∈ frees chain := by
  have hne : frees chain ≠ [] := by
    obtain ⟨l, g, rfl, hfree⟩ := h.layout.last
    rw [frees_append, frees_cons_of_free hfree]
    simp
  exact h.freeChain.visits_iff hne (zero_notMem_tail h.layout.sorted_frees)

/-- A current back link leads to the segment before. -/
theorem Holds.getLast?_previous (h : Holds base s (l₁ ++ c :: l₂) loose)
    (hlinks : s.CurrentPrevious base c.header) :
    s.memory.read c.header .previousSegment = 0 ∨
      ∃ k, l₁.getLast? = some k ∧ s.memory.read c.header .previousSegment = k.header := by
  rcases hlinks with h0 | ⟨hsegment, hlt, hnext⟩
  · exact .inl h0
  · right
    obtain ⟨g, hg, hgx⟩ := h.isSegment_iff.mp hsegment
    have hfollows := h.chained.next
    have hnodup := h.layout.nodup
    rw [List.map_append, List.map_cons] at hfollows hnodup
    have hlast := hfollows.getLast?_eq hnodup
      (by rw [← hgx, ← List.map_cons, ← List.map_append]; exact List.mem_map_of_mem hg)
      hnext (by omega)
    rw [List.getLast?_map, Option.map_eq_some_iff] at hlast
    obtain ⟨k, hk, hkx⟩ := hlast
    exact ⟨k, hk, hkx.symm⟩

/-- Current links of the chosen segment, in terms of its place in the layout. -/
theorem Holds.splitLinks {size : Nat} (h : Holds base s (l₁ ++ c :: l₂) loose)
    (hfree : c.free = true) (hlinks : s.CurrentMalloc base size c.header) :
    SplitLinks s.memory l₁ c := by
  have hchain := h.freeChain
  have hnodup := h.layout.nodup_frees
  rw [frees_append, frees_cons_of_free hfree] at hchain hnodup
  constructor
  · intro x hx
    have hne : c.header ≠ s.firstFreeSegment := by
      intro heq
      cases hl : frees l₁ with
      | nil => simp [hl] at hx
      | cons y l =>
          obtain ⟨g, hg, -, hgy⟩ := mem_frees.mp (hl ▸ List.mem_cons_self : y ∈ frees l₁)
          rw [hl] at hchain
          have hfirst : s.firstFreeSegment = y := hchain.1
          have hlt := h.layout.header_lt_of_mem.1 g hg
          omega
    obtain ⟨h0, hon, hlt, hnext⟩ := hlinks.previousFree hne
    have hmem := h.onFreeList_iff.mp hon
    rw [frees_append, frees_cons_of_free hfree] at hmem
    have hlast := hchain.getLast?_eq hnodup hmem hnext (by omega)
    rw [hx, Option.some.injEq] at hlast
    exact ⟨hlast ▸ h0, hlast.symm⟩
  · intro hl
    rw [hl] at hchain
    exact hlinks.first hchain.1.symm
  · exact h.getLast?_previous hlinks.previous

end Bridge

section Owned

variable {base : Nat} {r r' : HeapRun} {l₁ l₂ chain loose : List Segment} {c : Segment}

/-- Every live block has a live segment of its own. -/
structure Owned (base : Nat) (r : HeapRun) (chain loose : List Segment) : Prop where
  holds : Holds base r.heap chain loose
  live : ∀ b ∈ r.live, ∃ g ∈ chain ++ loose, g.free = false ∧
    b.1 = g.header + headerSize ∧ b.2 ≤ g.size
  loose : ∀ g ∈ loose, g.header + headerSize ∈ r.live.map Prod.fst
  distinct : (r.live.map Prod.fst).Nodup

theorem Owned.isHeader (h : Owned base r chain loose) {g : Segment}
    (hg : g ∈ chain ++ loose) : r.IsHeader base g.header := by
  rcases List.mem_append.mp hg with hg | hg
  · exact .inl (h.holds.isSegment_iff.mpr ⟨g, hg, rfl⟩)
  · exact .inr (h.loose g hg)

theorem Owned.exists_of_isHeader (h : Owned base r chain loose) {x : Nat}
    (hx : r.IsHeader base x) : ∃ g ∈ chain ++ loose, g.header = x := by
  rcases hx with hx | hx
  · obtain ⟨g, hg, hgx⟩ := h.holds.isSegment_iff.mp hx
    exact ⟨g, List.mem_append_left _ hg, hgx⟩
  · obtain ⟨b, hb, hbx⟩ := List.mem_map.mp hx
    obtain ⟨g, hg, -, hbg, -⟩ := h.live b hb
    exact ⟨g, hg, by omega⟩

/-- Current links of the freed segment, in terms of its place in the layout. -/
theorem Owned.freeLinks (h : Owned base r (l₁ ++ c :: l₂) loose) (hlive : c.free = false)
    (hlinks : r.CurrentFree base c.header) : FreeLinks r.heap.memory l₁ c l₂ loose := by
  have hholds := h.holds
  have hchain := hholds.freeChain
  have hnext : r.heap.memory.read c.header .nextSegment = c.finish :=
    hholds.chained.adjacent c (by simp) hlive
  have hbefore := hholds.layout.header_lt_of_mem.1
  have hafter := hholds.layout.header_lt_of_mem.2
  rw [frees_append, frees_cons_of_live hlive] at hchain
  obtain ⟨y, h₁, h₂⟩ := follows_append.mp hchain
  obtain ⟨z, l, hz, hlt⟩ := hholds.layout.frees_after hlive
  have hyz : y = z := by
    rw [hz] at h₂
    exact h₂.1
  have hmem : ∀ x, r.heap.OnFreeList x ↔ x ∈ frees l₁ ∨ x ∈ frees l₂ := by
    intro x
    rw [hholds.onFreeList_iff, frees_append, frees_cons_of_live hlive, List.mem_append]
  have hlow : ∀ x ∈ frees l₁, x < c.header := by
    intro x hx
    obtain ⟨g, hg, -, rfl⟩ := mem_frees.mp hx
    exact hbefore g hg
  have hhigh : ∀ x ∈ frees l₂, c.header < x := by
    intro x hx
    obtain ⟨g, hg, -, rfl⟩ := mem_frees.mp hx
    exact hafter g hg
  have hfirst : c.header < r.heap.firstFreeSegment ↔ frees l₁ = [] := by
    constructor
    · intro hc
      cases hl : frees l₁ with
      | nil => rfl
      | cons x l =>
          rw [hl] at h₁
          have hx := hlow x (by simp [hl])
          have heq : r.heap.firstFreeSegment = x := h₁.1
          omega
    · intro hl
      rw [hl] at h₁
      have heq : r.heap.firstFreeSegment = y := h₁
      omega
  constructor
  · have hlen := hlinks.length
    rw [hnext] at hlen
    simp only [Segment.finish, headerSize] at hlen
    omega
  · rcases hlinks.clear with h0 | ⟨hfits, hapart, hothers⟩
    · exact .inl h0
    · refine .inr ⟨hfits, hapart, fun k hk => hothers _ (h.isHeader ?_)⟩
      simp only [List.mem_append, List.mem_cons] at hk ⊢
      tauto
  · rcases hlinks.nextFree with ⟨h0, hflag⟩ | ⟨hon, hnf, hleast⟩
    · refine .inl ⟨h0, ?_⟩
      cases l₂ with
      | nil => simp at hz
      | cons g l =>
          have hfollows := hholds.chained.next
          rw [List.map_append, List.map_cons, List.map_cons, follows_append_cons] at hfollows
          have hg : r.heap.memory.read c.header .nextSegment = g.header := hfollows.2.1
          rw [hg] at hflag
          exact ⟨g, l, rfl, (hholds.chained.flag g (by simp)).mp hflag⟩
    · right
      have hz₂ : z ∈ frees l₂ := by simp [hz]
      have hle := hleast z ((hmem z).mpr (.inr hz₂)) (hhigh z hz₂)
      have hsorted := hholds.layout.sorted_frees
      rw [frees_append, frees_cons_of_live hlive, hz, List.pairwise_append,
        List.pairwise_cons] at hsorted
      rcases (hmem _).mp hon with hin | hin
      · have := hlow _ hin
        omega
      · rw [hz] at hin ⊢
        rcases List.mem_cons.mp hin with heq | hin
        · rw [heq, List.head?_cons]
        · have := hsorted.2.1.1 _ hin
          omega
  · intro x hx
    have hne : frees l₁ ≠ [] := by
      intro hl
      simp [hl] at hx
    obtain ⟨h0, hon, hlt', hskip⟩ := hlinks.previousFree (fun hc => hne (hfirst.mp hc))
    have hpf : r.heap.memory.read c.header .previousFreeSegment ∈ frees l₁ := by
      rcases (hmem _).mp hon with hin | hin
      · exact hin
      · have := hhigh _ hin
        omega
    obtain ⟨l₃, l₄, hl, -, hrest⟩ := h₁.split_mem hpf
    cases l₄ with
    | nil =>
        rw [hl, List.getLast?_concat, Option.some.injEq] at hx
        exact ⟨hx ▸ h0, hx⟩
    | cons b l₄ =>
        have hb : r.heap.memory.read
            (r.heap.memory.read c.header .previousFreeSegment) .nextFreeSegment = b := hrest.1
        have := hlow b (by simp [hl])
        omega
  · intro hl
    rcases hlinks.first (hfirst.mpr hl) with h0 | ⟨hne, hheader, hle⟩
    · exact .inl h0
    · right
      obtain ⟨g, hg, hgx⟩ := h.exists_of_isHeader hheader
      refine ⟨g, ?_, hgx.symm, hgx ▸ hle⟩
      simp only [List.mem_append, List.mem_cons] at hg ⊢
      rcases hg with (hg | rfl | hg) | hg
      · exact .inl (.inl hg)
      · exact absurd hgx.symm hne
      · exact .inl (.inr hg)
      · exact .inr hg
  · rcases hholds.getLast?_previous hlinks.previous with h0 | ⟨k, hk, hps⟩
    · exact .inl h0
    · by_cases h0 : r.heap.memory.read c.header .previousSegment = 0
      · exact .inl h0
      · refine .inr ⟨k, hk, hps, fun hfree => ?_⟩
        have hkmem : k ∈ l₁ ++ c :: l₂ := by simp [List.mem_of_getLast? hk]
        have hadj := hlinks.adjacent h0
          (hps ▸ (hholds.chained.flag k (List.mem_append_left _ hkmem)).mpr hfree)
        rw [hps, hholds.chained.length k hkmem hfree] at hadj
        exact hadj

theorem Holds.forgetWrites {s : HeapState} (h : Holds base s chain loose) :
    Holds base s.forgetWrites chain loose :=
  ⟨h.layout, h.chained.congr fun _ _ => ⟨rfl, rfl, rfl⟩, h.freeChain⟩

theorem FreeLinks.forgetWrites {s : HeapState} (h : FreeLinks s.memory l₁ c l₂ loose) :
    FreeLinks s.forgetWrites.memory l₁ c l₂ loose :=
  ⟨h.length, h.clear, h.nextFree, h.free, h.noFree, h.segment⟩

theorem HeapState.CurrentFit.forgetWrites {s : HeapState} {size : Nat} {frames : List Frame}
    (h : s.CurrentFit base size frames) : s.forgetWrites.CurrentFit base size frames := by
  intro c hfit
  have hcond := h c hfit
  split at hcond
  · rename_i hsmall
    exact (if_pos hsmall).mpr hcond
  · rename_i hsmall
    exact (if_neg hsmall).mpr
      ⟨hcond.room, hcond.first, hcond.previousFree, hcond.previous⟩

/-- A live block whose links are current has its segment on the chain. -/
theorem Owned.exists_segment {address : Nat} (h : Owned base r chain loose)
    (hmem : address ∈ r.live.map Prod.fst) (hcurrent : r.CurrentFree base (headerOf address)) :
    ∃ l₁ k l₂, chain = l₁ ++ k :: l₂ ∧ k.free = false ∧ address = k.header + headerSize ∧
      headerOf address = k.header := by
  obtain ⟨b, hb, rfl⟩ := List.mem_map.mp hmem
  obtain ⟨g, hg, hlive, hbg, -⟩ := h.live b hb
  have hfin := (h.holds.layout.inside g hg).2
  have hlt := g.header_lt_finish
  have hlimit := h.holds.layout.limit
  have hheader : headerOf b.1 = g.header := by
    simp only [headerOf, hbg, headerSize, u32]
    omega
  obtain ⟨k, hk, hkg⟩ := h.holds.isSegment_iff.mp hcurrent.segment
  obtain rfl := h.holds.layout.header_injective (List.mem_append_left _ hk) hg
    (hkg.trans hheader)
  obtain ⟨l₁, l₂, rfl⟩ := List.append_of_mem hk
  exact ⟨l₁, k, l₂, rfl, hlive, hbg, hheader⟩

/-- Freeing a live block whose links are current leaves every other live block its own
segment. -/
theorem Owned.free {address : Nat} (h : Owned base r chain loose)
    (hcurrent : r.CurrentFree base (headerOf address))
    (hcall : r.call (.free address) = some r') : ∃ chain', Owned base r' chain' loose := by
  rw [HeapRun.call] at hcall
  split at hcall
  · rename_i hmem
    obtain rfl := Option.some.inj hcall
    obtain ⟨l₁, k, l₂, rfl, hlive, hbg, hheader⟩ := h.exists_segment hmem hcurrent
    rw [hheader] at hcurrent
    obtain ⟨-, -, chain', hholds, hmem', -⟩ := h.holds.forgetWrites.free hlive
      (h.freeLinks hlive hcurrent).forgetWrites
    rw [show k.header + 24 = address from hbg.symm] at hholds
    refine ⟨chain', hholds, ?_, ?_, ?_⟩
    · intro e he
      obtain ⟨he, hne⟩ := List.mem_filter.mp he
      obtain ⟨g, hg, hglive, heg, hsize⟩ := h.live e he
      have hgk : g ≠ k := by
        rintro rfl
        simp [heg, hbg] at hne
      refine ⟨g, ?_, hglive, heg, hsize⟩
      simp only [List.mem_append, List.mem_cons] at hg ⊢
      rcases hg with (hg | hg | hg) | hg
      · exact .inl (hmem' g (by simp [hg]) hglive)
      · exact absurd hg hgk
      · exact .inl (hmem' g (by simp [hg]) hglive)
      · exact .inr hg
    · intro d hd
      obtain ⟨e, he, hed⟩ := List.mem_map.mp (h.loose d hd)
      have hne : d.header ≠ k.header := by
        have hlayout : Layout base (r.heap.nextFreePageIndex * PGSIZE) (l₁ ++ [k] ++ l₂) loose := by
          simpa using h.holds.layout
        exact hlayout.header_ne (by simp [hd]) (by simp)
      refine List.mem_map.mpr ⟨e, List.mem_filter.mpr ⟨he, ?_⟩, hed⟩
      simp only [hed, hbg, ne_eq, decide_eq_true_eq]
      omega
    · exact h.distinct.sublist (List.filter_sublist.map _)
  · exact absurd hcall (by simp)

/-- Rounding a size up to a multiple of 8, away from the end of the address space. -/
theorem roundSize_spec {size : Nat} (h : size ≤ 4294967288) :
    size ≤ roundSize size ∧ roundSize size < size + 8 ∧ roundSize size ≤ 4294967288 ∧
      roundSize size % 8 = 0 := by
  simp only [roundSize, u32]
  split <;> omega

end Owned

section Malloc

variable {base size c : Nat} {s : HeapState} {chain loose : List Segment}

/-- The search ends at a free segment, and it is the last one if it is too small. -/
theorem Holds.firstFit (h : Holds base s chain loose)
    (hfit : firstFit s.memory size s.firstFreeSegment = some c) :
    ∃ g l₁ l₂, chain = l₁ ++ g :: l₂ ∧ g.free = true ∧ g.header = c ∧
      (s.memory.read c .memoryLength < size → l₂ = []) := by
  have hon : s.OnFreeList c := by
    apply chase_induct (P := s.OnFreeList) _ (.refl _) hfit
    intro a b ha hgo
    rw [skipSegment] at hgo
    split at hgo
    · rename_i hcond
      cases hgo
      exact .next ha hcond.2
    · exact absurd hgo (by simp)
  have hmem := h.onFreeList_iff.mp hon
  obtain ⟨g, hg, hfree, rfl⟩ := mem_frees.mp hmem
  obtain ⟨l₁, l₂, rfl⟩ := List.append_of_mem hg
  refine ⟨g, l₁, l₂, rfl, hfree, rfl, ?_⟩
  intro hsmall
  have hstop : s.memory.read g.header .nextFreeSegment = 0 := by
    have hgo := go_of_chase hfit
    rw [skipSegment] at hgo
    by_contra hne
    rw [if_pos ⟨hsmall, hne⟩] at hgo
    exact absurd hgo (by simp)
  have hchain := h.freeChain
  rw [frees_append, frees_cons_of_free hfree, follows_append_cons, hstop] at hchain
  have hnil : frees l₂ = [] := by
    cases hl : frees l₂ with
    | nil => rfl
    | cons x l =>
        rw [hl] at hchain
        obtain ⟨k, hk, -, hkx⟩ := mem_frees.mp (hl ▸ List.mem_cons_self : x ∈ frees l₂)
        have hx : 0 = x := hchain.2.1
        have hlt := h.layout.header_lt_of_mem.2 k hk
        omega
  exact h.layout.eq_nil_of_frees hnil

/-- The block that a call of `malloc` returned, in the layout after it. -/
structure Granted (p size : Nat) (chain loose chain' loose' : List Segment) : Prop where
  notNull : p ≠ NO_ADDR
  segment : ∃ g ∈ chain' ++ loose', g.free = false ∧ p = g.header + headerSize ∧ g.size = size ∧
    (loose' = loose ∨ loose' = g :: loose) ∧
    ∀ k ∈ chain ++ loose, k.free = false → k.header ≠ g.header

/-- Taking a block from the segment where the search ends. -/
theorem Holds.malloc_split {g : Segment} {l₁ l₂ : List Segment}
    (h : Holds base s (l₁ ++ g :: l₂) loose) (hfree : g.free = true)
    (hcurrent : s.CurrentMalloc base size g.header) :
    ∃ chain', Holds base (Heap.mallocSplit size g.header s).1 chain' loose ∧
      (∀ k ∈ l₁ ++ g :: l₂ ++ loose, k.free = false → k ∈ chain' ++ loose) ∧
      Granted (Heap.mallocSplit size g.header s).2 size (l₁ ++ g :: l₂) loose chain' loose := by
  have hlen := h.chained.length g (by simp) hfree
  have hroom := hcurrent.room
  rw [hlen, headerSize] at hroom
  have hfin := (h.layout.inside g (by simp)).2
  have hlimit := h.layout.limit
  simp only [Segment.finish, headerSize] at hfin
  have hp : (Heap.mallocSplit size g.header s).2 = g.header + headerSize := by
    change u32 (g.header + headerSize) = _
    rw [u32_of_lt (by rw [headerSize]; omega)]
  have hlayout : Layout base (s.nextFreePageIndex * PGSIZE) (l₁ ++ [g] ++ l₂) loose := by
    simpa using h.layout
  refine ⟨_, h.mallocSplit hfree hroom (h.splitLinks hfree hcurrent), ?_, ?_, ?_⟩
  · intro k hk hlive
    simp only [List.mem_append, List.mem_cons] at hk ⊢
    rcases hk with (hk | rfl | hk) | hk
    · exact .inl (.inl hk)
    · rw [hfree] at hlive
      exact absurd hlive (by decide)
    · exact .inl (.inr (.inr (.inr hk)))
    · exact .inr hk
  · rw [hp, headerSize, NO_ADDR]
    omega
  · refine ⟨g.take size, by simp, rfl, hp, rfl, .inl rfl, ?_⟩
    intro k hk hlive
    rw [Segment.take_header]
    apply hlayout.header_ne _ (by simp)
    simp only [List.mem_append, List.mem_cons] at hk ⊢
    rcases hk with (hk | rfl | hk) | hk
    · exact .inl (.inl hk)
    · rw [hfree] at hlive
      exact absurd hlive (by decide)
    · exact .inl (.inr hk)
    · exact .inr hk

/-- A size that is too small for some segment needs a page. -/
theorem extensionPages_pos (h8 : size % 8 = 0) (h0 : 0 < size) (hlt : size ≤ 4294967288) :
    0 < extensionPages size := by
  rw [extensionPages]
  by_cases hrem : size % PGSIZE ≠ 0
  · rw [if_pos hrem]
    exact Nat.add_pos_right _ Nat.one_pos
  · rw [if_neg hrem, u32, headerSize, PGSIZE]
    rw [PGSIZE] at hrem
    omega

/-- Getting new pages for a block that fits nowhere. -/
theorem Holds.malloc_extend {g : Segment} {l : List Segment} {frames : List Frame}
    {s' : HeapState} {p : Nat} (h : Holds base s (l ++ [g]) loose) (hfree : g.free = true)
    (hindex : s.nextFreePageIndex + frames.length ≤ 1048576) (hpages : 0 < extensionPages size)
    (hfits : frames.length < extensionPages size ∨ FitsPages size)
    (hextend : mallocExtend size g.header frames s = some (s', p)) :
    ∃ chain' loose', Holds base s' chain' loose' ∧
      (∀ k ∈ l ++ [g] ++ loose, k.free = false → k ∈ chain' ++ loose') ∧
      (p = NO_ADDR ∧ loose' = loose ∨ Granted p size (l ++ [g]) loose chain' loose') ∧
      (BackLinked s.memory (l ++ [g]) → BackLinked s'.memory chain') ∧
      (chain' = l ++ [g] ∨ ∃ b, chain' = l ++ [g] ++ [newBlock b size, leftover b size]) := by
  obtain ⟨pages, hmaps, hle, hres⟩ := pallocHeap_spec hpages hindex
  have hlimit : (pallocHeap (extensionPages size) frames s).1.nextFreePageIndex * PGSIZE ≤
      4294967296 := by
    rw [hmaps.index, PGSIZE]
    omega
  have hraise := h.raise hmaps hlimit
  have hraiseBack := fun hback => h.raise_backLinked hmaps hback
  rw [mallocExtend] at hextend
  generalize pallocHeap (extensionPages size) frames s = res at *
  obtain ⟨s₁, b⟩ := res
  simp only at hres hextend hraise hraiseBack hmaps hlimit
  rcases hres with ⟨haddr, hn⟩ | ⟨haddr, hlt, -⟩
  · have hfits : FitsPages size := hfits.resolve_left (by omega)
    have hb : b + 24 < 4294967296 := by
      rw [haddr, PGSIZE]
      omega
    rw [if_neg (by rw [haddr, NO_ADDR, PGSIZE]; omega)] at hextend
    obtain ⟨m', hlink, hs'⟩ := Option.map_eq_some_iff.mp hextend
    rw [Prod.mk.injEq] at hs'
    obtain ⟨rfl, rfl⟩ := hs'
    rw [u32_of_lt (by rw [headerSize]; omega)]
    have htop : s.nextFreePageIndex * PGSIZE ≤ s₁.nextFreePageIndex * PGSIZE :=
      Nat.mul_le_mul_right _ (by rw [hmaps.index]; exact Nat.le_add_right _ _)
    have hspace : s₁.nextFreePageIndex * PGSIZE = b + extensionPages size * PGSIZE := by
      rw [hmaps.index, haddr, hn, Nat.add_mul]
    have hne : ∀ k ∈ l ++ [g] ++ loose, k.header ≠ b := by
      intro k hk
      have hin := h.layout.inside k hk
      have hlt := k.header_lt_finish
      omega
    rw [FitsPages] at hfits
    have hnotNull : b + headerSize ≠ NO_ADDR := by
      rw [headerSize, NO_ADDR, haddr, PGSIZE]
      omega
    by_cases hrem : headerSize < size % PGSIZE
    · rw [if_pos hrem] at hfits
      have hlayout : Layout base (s₁.nextFreePageIndex * PGSIZE)
          ((l ++ [g]) ++ [newBlock b size, leftover b size]) loose := by
        apply h.layout.extend htop hlimit
        · intro k hk
          simp only [List.mem_cons, List.not_mem_nil, or_false] at hk
          rcases hk with rfl | rfl <;>
            simp only [newBlock, leftover, Segment.finish, headerSize] at * <;> omega
        · simp [newBlock, leftover, Segment.finish]
        · exact ⟨[_], _, rfl, rfl⟩
      refine ⟨_, _, hraise.linkNewPages hfree hrem hlayout hlink, ?_, .inr ⟨hnotNull, ?_⟩, ?_,
        .inr ⟨b, rfl⟩⟩
      · intro k hk _
        rcases List.mem_append.mp hk with hk | hk
        · exact List.mem_append_left _ (List.mem_append_left _ hk)
        · exact List.mem_append_right _ hk
      · exact ⟨newBlock b size, by simp, rfl, rfl, rfl, .inl rfl, fun k hk _ => hne k hk⟩
      · intro hback
        exact (linkEffect hrem hlayout hlink).backLinked hfree
          ((hraise.chained.flag g (by simp)).mpr hfree) (hraiseBack hback)
    · rw [if_neg hrem] at hfits
      have hlayout : Layout base (s₁.nextFreePageIndex * PGSIZE) (l ++ [g])
          (newBlock b size :: loose) := by
        apply h.layout.addLoose htop hlimit
        · exact haddr.ge
        · simp only [newBlock, Segment.finish, headerSize] at *
          omega
        · rfl
      obtain ⟨m₁, hlink', hholds, hsame⟩ := hraise.linkNewPages_of_le hfree (by omega) hlayout
      obtain rfl : m₁ = m' := Option.some.inj (hlink'.symm.trans hlink)
      refine ⟨_, _, hholds, ?_, .inr ⟨hnotNull, ?_⟩,
        fun hback => mirrors_frees_congr (hraiseBack hback) hsame, .inl rfl⟩
      · intro k hk _
        rcases List.mem_append.mp hk with hk | hk
        · exact List.mem_append_left _ hk
        · exact List.mem_append_right _ (List.mem_cons_of_mem _ hk)
      · exact ⟨newBlock b size, by simp, rfl, rfl, rfl, .inr rfl, fun k hk _ => hne k hk⟩
  · rw [if_pos haddr, Option.some.injEq, Prod.mk.injEq] at hextend
    obtain ⟨rfl, rfl⟩ := hextend
    exact ⟨_, _, hraise, fun k hk _ => hk, .inl ⟨rfl, rfl⟩, hraiseBack, .inl rfl⟩

/-- A call of `malloc` whose links are current keeps a layout. -/
theorem Holds.malloc {n : Nat} {frames : List Frame} {s' : HeapState} {p : Nat}
    (h : Holds base s chain loose)
    (hindex : s.nextFreePageIndex + frames.length ≤ 1048576) (hn : n ≤ 4294967288)
    (hcurrent : s.CurrentFit base (roundSize n) frames)
    (hmalloc : Heap.malloc n frames s = some (s', p)) :
    ∃ chain' loose', Holds base s' chain' loose' ∧
      (∀ k ∈ chain ++ loose, k.free = false → k ∈ chain' ++ loose') ∧
      (p = NO_ADDR ∧ loose' = loose ∨ Granted p (roundSize n) chain loose chain' loose') := by
  rw [Heap.malloc] at hmalloc
  cases hfit : Heap.firstFit s.memory (roundSize n) s.firstFreeSegment with
  | none => simp [hfit] at hmalloc
  | some c =>
      obtain ⟨g, l₁, l₂, rfl, hfree, rfl, hlast⟩ := h.firstFit hfit
      have hcond := hcurrent _ hfit
      simp only [hfit] at hmalloc
      by_cases hsmall : s.memory.read g.header .memoryLength < roundSize n
      · rw [if_pos hsmall] at hmalloc hcond
        obtain rfl := hlast hsmall
        obtain ⟨-, -, hle, h8⟩ := roundSize_spec hn
        obtain ⟨chain', loose', hholds, hmem, hgranted, -⟩ :=
          h.malloc_extend hfree hindex (extensionPages_pos h8 (by omega) hle) hcond.2 hmalloc
        exact ⟨chain', loose', hholds, hmem, hgranted⟩
      · rw [if_neg hsmall, Option.some.injEq] at hmalloc
        rw [if_neg hsmall] at hcond
        obtain ⟨chain', hholds, hmem, hgranted⟩ := h.malloc_split hfree hcond
        rw [hmalloc] at hholds hgranted
        exact ⟨chain', loose, hholds, hmem, .inr hgranted⟩

end Malloc

section Step

variable {base : Nat} {r r' : HeapRun} {chain loose : List Segment}

/-- The frames that are left fit into the address space. -/
theorem Holds.index_le {size : Nat} {frames : List Frame} (h : Holds base r.heap chain loose)
    (hproper : (HeapCall.malloc size frames).Proper r) :
    r.heap.nextFreePageIndex + frames.length ≤ 1048576 := by
  have hlimit := h.layout.limit
  have hframes := hproper.2
  rw [PGSIZE] at hlimit
  omega

theorem Owned.malloc {size : Nat} {frames : List Frame} (h : Owned base r chain loose)
    (hproper : (HeapCall.malloc size frames).Proper r)
    (hcurrent : (HeapCall.malloc size frames).Current base r)
    (hcall : r.call (.malloc size frames) = some r') :
    ∃ chain' loose', Owned base r' chain' loose' := by
  rw [HeapRun.call] at hcall
  obtain ⟨⟨heap, p⟩, hmalloc, rfl⟩ := Option.map_eq_some_iff.mp hcall
  have hindex := h.holds.index_le hproper
  obtain ⟨chain', loose', hholds, hmem, hgranted⟩ := h.holds.forgetWrites.malloc hindex
    hcurrent.1 hcurrent.2.forgetWrites hmalloc
  refine ⟨chain', loose', ?_⟩
  have hold : ∀ b ∈ r.live, ∃ g ∈ chain' ++ loose', g.free = false ∧
      b.1 = g.header + headerSize ∧ b.2 ≤ g.size := by
    intro b hb
    obtain ⟨g, hg, hlive, hbg, hsize⟩ := h.live b hb
    exact ⟨g, hmem g hg hlive, hlive, hbg, hsize⟩
  rcases hgranted with ⟨rfl, rfl⟩ | ⟨hnotNull, g, hg, hlive, hpg, hsize, hloose, hne⟩
  · exact ⟨hholds, by simpa using hold, by simpa using h.loose, by simpa using h.distinct⟩
  · constructor
    · exact hholds
    · intro b hb
      simp only [if_neg hnotNull, List.mem_cons] at hb
      rcases hb with rfl | hb
      · exact ⟨g, hg, hlive, hpg, hsize ▸ (roundSize_spec hcurrent.1).1⟩
      · exact hold b hb
    · intro k hk
      simp only [if_neg hnotNull, List.map_cons, List.mem_cons]
      rcases hloose with rfl | rfl
      · exact .inr (h.loose k hk)
      · rcases List.mem_cons.mp hk with rfl | hk
        · exact .inl hpg.symm
        · exact .inr (h.loose k hk)
    · simp only [if_neg hnotNull, List.map_cons, List.nodup_cons]
      refine ⟨?_, h.distinct⟩
      intro hp
      obtain ⟨b, hb, hbp⟩ := List.mem_map.mp hp
      obtain ⟨k, hk, hklive, hbk, -⟩ := h.live b hb
      exact hne k hk hklive (by omega)

/-- A call whose links are current leaves every live block a segment of its own. -/
theorem Owned.step {a : HeapCall} (h : Owned base r chain loose) (hproper : a.Proper r)
    (hcurrent : a.Current base r) (hcall : r.call a = some r') :
    ∃ chain' loose', Owned base r' chain' loose' := by
  cases a with
  | malloc size frames => exact h.malloc hproper hcurrent hcall
  | free address =>
      obtain ⟨chain', h'⟩ := h.free hcurrent hcall
      exact ⟨chain', loose, h'⟩

/-- The heap as `initialiseHeap` leaves it. -/
theorem Owned.start {index first : Nat} {memory : Memory} (hbase : base % PGSIZE = 0)
    (hindex : base / PGSIZE < index) (hlimit : index ≤ 1048576) :
    Owned base ⟨initialiseHeap base PGSIZE ⟨memory, first, index⟩, []⟩
      [⟨base, PGSIZE - headerSize, true⟩] [] := by
  have hfit : base + PGSIZE ≤ index * PGSIZE := by
    rw [PGSIZE] at *
    omega
  rw [PGSIZE] at hfit
  have hlayout : Layout base (index * PGSIZE) [⟨base, PGSIZE - headerSize, true⟩] [] := by
    constructor
    · rw [PGSIZE] at hbase
      rw [headerSize]
      omega
    · simp
    · rw [PGSIZE]
      omega
    · simp only [List.append_nil, List.mem_singleton, Segment.finish, PGSIZE, headerSize]
      rintro g rfl
      simp only
      omega
    · simp
    · simp
    · exact ⟨[], _, rfl, rfl⟩
    · simp
  have hA := hlayout.separated
  have hbaseA : base ∈ Layout.headers [⟨base, PGSIZE - headerSize, true⟩] [] :=
    Layout.mem_headers (g := ⟨base, PGSIZE - headerSize, true⟩) (by simp)
  have hread := fun m f g v => hA.read_write m hbaseA hbaseA f g v
  refine ⟨⟨hlayout, ⟨?_, ?_, ?_, ?_⟩, ?_⟩, by simp, by simp, by simp⟩
  · simp [initialiseHeap, hread]
  · simp [initialiseHeap, hread]
  · simp [initialiseHeap, hread]
  · simp
  · simp [frees, initialiseHeap, hread]

/-- In a run of calls whose links are current, every live block has a segment of its own. -/
theorem Owned.of_reach {index : Nat}
    (run : (heapMachine base index).Reach (fun r a => a.Current base r) r) :
    ∃ chain loose, Owned base r chain loose := by
  apply run.invariant
  · rintro s ⟨⟨hbase, hindex, hlimit⟩, memory, first, rfl⟩
    exact ⟨_, _, Owned.start hbase hindex hlimit⟩
  · rintro s a s' ⟨chain, loose, h⟩ hcurrent ⟨hproper, hcall⟩
    exact h.step hproper hcurrent hcall

end Step

end NickOS3.Heap
