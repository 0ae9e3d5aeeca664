import NickOS3.Heap.Merging
import NickOS3.Heap.Ownership

/-!
# What `free` gives back

A freed block joins the free bytes, and with it the free segments it lies next to become
one. `FreesExactly` says what that leaves alone. The code merges only where both pointers
are not null, so the segment at address 0 is never merged; at the other end of the chain a
merge writes through the null pointer.
-/

namespace NickOS3.Heap

open Foundation

section States

variable (base : Nat) (s s' : HeapState)

/-- A free segment of the chain has its header at `x`. -/
def HeapState.IsFree (x : Nat) : Prop :=
  s.IsSegment base x ∧ s.memory.read x .free ≠ 0

/-- The bytes of the header at `x` and the payload behind it. -/
def HeapState.extent (x : Nat) : Set Nat :=
  Set.Ico x (x + headerSize + s.memory.read x .memoryLength)

/-- The bytes that free segments and their headers cover. -/
def HeapState.freeBytes : Set Nat := {a | ∃ x, s.IsFree base x ∧ a ∈ s.extent x}

/-- No free segment begins where another one ends. -/
def HeapState.Coalesced : Prop :=
  ∀ x y, s.IsFree base x → s.IsFree base y →
    x + headerSize + s.memory.read x .memoryLength ≠ y

/-- `x` and `y` are neighbours on the chain of segments. -/
def HeapState.Neighbours (x y : Nat) : Prop :=
  s.IsSegment base x ∧ s.IsSegment base y ∧
    (y ≠ 0 ∧ s.memory.read x .nextSegment = y ∨ x ≠ 0 ∧ s.memory.read y .nextSegment = x)

/-- `x` and `y` are neighbours on the free list. -/
def HeapState.FreeNeighbours (x y : Nat) : Prop :=
  s.OnFreeList x ∧ s.OnFreeList y ∧
    (y ≠ 0 ∧ s.memory.read x .nextFreeSegment = y ∨
      x ≠ 0 ∧ s.memory.read y .nextFreeSegment = x)

/-- From `s` to `s'` the segment at `h` is freed: `x` is this segment, a neighbour of it, the
free segment that it becomes part of, or a neighbour of that on one of the chains. -/
def HeapState.Around (h x : Nat) : Prop :=
  x = h ∨ s.Neighbours base h x ∨
    ∃ e, s'.IsFree base e ∧ h ∈ s'.extent e ∧
      (x = e ∨ s'.Neighbours base e x ∨ s'.FreeNeighbours e x)

end States

/-- `free(address)` leaves the other live blocks alone, writes only around the freed segment,
adds exactly its bytes to the free ones and merges it with the free segments next to it. -/
structure FreesExactly (base : Nat) (r : HeapRun) (address : Nat) (s' : HeapState) : Prop where
  length : ∀ b ∈ r.live, b.1 ≠ address →
    s'.memory.read (headerOf b.1) .memoryLength = r.heap.memory.read (headerOf b.1) .memoryLength
  flag : ∀ b ∈ r.live, b.1 ≠ address →
    s'.memory.read (headerOf b.1) .free = r.heap.memory.read (headerOf b.1) .free
  payload : ∀ b ∈ r.live, b.1 ≠ address → ∀ a ∈ payload b,
    s'.memory.words a = r.heap.memory.words a
  clear : ∀ b ∈ r.live, b.1 ≠ address → ∀ x ∈ s'.memory.written,
    Disjoint (Heap.payload b) (Set.Ico x (x + headerSize))
  writes : s'.memory.WritesIn {x | r.heap.Around base s' (headerOf address) x}
  grows : s'.freeBytes base = r.heap.freeBytes base ∪ r.heap.extent (headerOf address)
  fresh : Disjoint (r.heap.freeBytes base) (r.heap.extent (headerOf address))
  coalesced : s'.Coalesced base

/-- The links that a merge needs are current: the link to the next free segment; the free
segment before is not at address 0 and is linked back to; the segment is not at address 0
when the one behind it is free, and that one is not the last unless the header at address 0
belongs to the segment before. -/
structure HeapRun.MergesFree (base : Nat) (r : HeapRun) (h : Nat) : Prop where
  nextFree : r.heap.memory.read h .nextFreeSegment = 0 ∨
    r.heap.OnFreeList (r.heap.memory.read h .nextFreeSegment) ∧
    h < r.heap.memory.read h .nextFreeSegment ∧
    ∀ x, r.heap.OnFreeList x → h < x → r.heap.memory.read h .nextFreeSegment ≤ x
  previous : ∀ x, r.heap.IsFree base x → r.heap.memory.read x .nextSegment = h →
    x + headerSize + r.heap.memory.read x .memoryLength = h →
    x ≠ 0 ∧ r.heap.memory.read h .previousSegment = x
  next : r.heap.memory.read (r.heap.memory.read h .nextSegment) .free ≠ 0 →
    h ≠ 0 ∧ (r.heap.memory.read (r.heap.memory.read h .nextSegment) .nextSegment = 0 →
      base = 0 ∧ r.heap.memory.read 0 .nextSegment = h)

/-- What keeps `free` exact, said of the state before a call: the links the call reads are
current, and a freed segment is merged wherever it lies next to a free one. -/
def HeapCall.Merges (base : Nat) (r : HeapRun) (a : HeapCall) : Prop :=
  a.Current base r ∧
    match a with
    | .malloc _ _ => True
    | .free address => r.MergesFree base (headerOf address)

section States

variable {base : Nat} {s s' : HeapState} {r : HeapRun} {l₁ l₂ chain loose L R : List Segment}
  {c g e : Segment}

theorem Holds.isFree_iff (h : Holds base s chain loose) {x : Nat} :
    s.IsFree base x ↔ ∃ g ∈ chain, g.free = true ∧ g.header = x := by
  rw [HeapState.IsFree, h.isSegment_iff]
  constructor
  · rintro ⟨⟨g, hg, rfl⟩, hflag⟩
    exact ⟨g, hg, (h.chained.flag g (List.mem_append_left _ hg)).mp hflag, rfl⟩
  · rintro ⟨g, hg, hfree, rfl⟩
    exact ⟨⟨g, hg, rfl⟩, (h.chained.flag g (List.mem_append_left _ hg)).mpr hfree⟩

theorem Holds.extent_eq (h : Holds base s chain loose) (hg : g ∈ chain)
    (hfree : g.free = true) : s.extent g.header = Set.Ico g.header g.finish := by
  rw [HeapState.extent, h.chained.length g hg hfree, Segment.finish]

theorem Holds.freeBytes_eq (h : Holds base s chain loose) :
    s.freeBytes base = {a | Covered chain a} := by
  ext a
  constructor
  · rintro ⟨x, hx, ha⟩
    obtain ⟨g, hg, hfree, rfl⟩ := h.isFree_iff.mp hx
    rw [h.extent_eq hg hfree] at ha
    exact ⟨g, hg, hfree, ha⟩
  · rintro ⟨g, hg, hfree, ha⟩
    refine ⟨g.header, h.isFree_iff.mpr ⟨g, hg, hfree, rfl⟩, ?_⟩
    rw [h.extent_eq hg hfree]
    exact ha

theorem Holds.coalesced_iff (h : Holds base s chain loose) :
    s.Coalesced base ↔ Spaced chain := by
  rw [h.layout.spaced_iff]
  constructor
  · intro hcoalesced g hg k hk hgfree hkfree
    have hne := hcoalesced _ _ (h.isFree_iff.mpr ⟨g, hg, hgfree, rfl⟩)
      (h.isFree_iff.mpr ⟨k, hk, hkfree, rfl⟩)
    rwa [h.chained.length g hg hgfree] at hne
  · intro hspaced x y hx hy
    obtain ⟨g, hg, hgfree, rfl⟩ := h.isFree_iff.mp hx
    obtain ⟨k, hk, hkfree, rfl⟩ := h.isFree_iff.mp hy
    rw [h.chained.length g hg hgfree]
    exact hspaced g hg k hk hgfree hkfree

/-- The next free segment behind a live one is the first of those behind it. -/
theorem Holds.head?_frees (h : Holds base s (l₁ ++ c :: l₂) loose) (hlive : c.free = false)
    {x : Nat} (hon : s.OnFreeList x) (hlt : c.header < x)
    (hleast : ∀ y, s.OnFreeList y → c.header < y → x ≤ y) : (frees l₂).head? = some x := by
  obtain ⟨z, l, hz, hcz⟩ := h.layout.frees_after hlive
  have hmem : ∀ y, s.OnFreeList y ↔ y ∈ frees l₁ ∨ y ∈ frees l₂ := by
    intro y
    rw [h.onFreeList_iff, frees_append, frees_cons_of_live hlive, List.mem_append]
  have hle := hleast z ((hmem z).mpr (.inr (by simp [hz]))) hcz
  have hsorted := h.layout.sorted_frees
  rw [frees_append, frees_cons_of_live hlive, hz, List.pairwise_append,
    List.pairwise_cons] at hsorted
  rcases (hmem x).mp hon with hin | hin
  · obtain ⟨g, hg, -, rfl⟩ := mem_frees.mp hin
    have := h.layout.header_lt_of_mem.1 g hg
    omega
  · rw [hz] at hin ⊢
    rcases List.mem_cons.mp hin with rfl | hin
    · rfl
    · have := hsorted.2.1.1 _ hin
      omega

/-- The segment that leads to another one is the one before it. -/
theorem Holds.getLast?_of_next (h : Holds base s (l₁ ++ c :: l₂) loose) (hg : g ∈ l₁ ++ c :: l₂)
    (hnext : s.memory.read g.header .nextSegment = c.header) (h0 : c.header ≠ 0) :
    ∃ k, l₁.getLast? = some k ∧ k.header = g.header := by
  have hfollows := h.chained.next
  have hnodup := h.layout.nodup
  rw [List.map_append, List.map_cons] at hfollows hnodup
  have hlast := hfollows.getLast?_eq hnodup
    (by rw [← List.map_cons, ← List.map_append]; exact List.mem_map_of_mem hg) hnext h0
  rw [List.getLast?_map, Option.map_eq_some_iff] at hlast
  exact hlast

theorem Holds.mergeLinks (h : Holds base r.heap (l₁ ++ c :: l₂) loose) (hlive : c.free = false)
    (hmerges : r.MergesFree base c.header) : MergeLinks r.heap.memory l₁ c l₂ := by
  have hsegments := h.chained.next
  rw [List.map_append, List.map_cons, follows_append_cons] at hsegments
  constructor
  · rcases hmerges.nextFree with h0 | ⟨hon, hlt, hleast⟩
    · exact .inl h0
    · exact .inr (h.head?_frees hlive hon hlt hleast)
  · intro k hk hkfree hadj
    have hmem : k ∈ l₁ ++ c :: l₂ := by simp [List.mem_of_getLast? hk]
    apply hmerges.previous k.header (h.isFree_iff.mpr ⟨k, hmem, hkfree, rfl⟩)
    · apply hsegments.1.next_getLast
      rw [List.getLast?_map, hk, Option.map_some]
    · exact (congrArg _ (h.chained.length k hmem hkfree)).trans hadj
  · rintro g l rfl hgfree
    have hg : r.heap.memory.read c.header .nextSegment = g.header := hsegments.2.1
    have hflag := (h.chained.flag g (by simp)).mpr hgfree
    rw [← hg] at hflag
    obtain ⟨h0, hnull⟩ := hmerges.next hflag
    refine ⟨h0, ?_⟩
    rintro rfl
    have hlast : r.heap.memory.read (r.heap.memory.read c.header .nextSegment)
        .nextSegment = 0 := by
      rw [hg]
      exact hsegments.2.2
    obtain ⟨hbase, hnext⟩ := hnull hlast
    obtain ⟨k, hk, hkbase⟩ := h.layout.first
    obtain ⟨e, he, hek⟩ := h.getLast?_of_next hk (by rw [hkbase, hbase]; exact hnext) h0
    exact ⟨e, he, hek.trans (hkbase.trans hbase)⟩

/-- What is beside the freed segment in the layouts is around it on the chains. -/
theorem FreeEffect.around (he : FreeEffect base s s' l₁ c l₂ loose L e R)
    (h : Holds base s (l₁ ++ c :: l₂) loose) {x : Nat} (hx : x ∈ beside l₁ c l₂ L e R) :
    s.Around base s' c.header x := by
  have hsegments := h.chained.next
  rw [List.map_append, List.map_cons, follows_append_cons] at hsegments
  have hafter := he.holds.chained.next
  rw [List.map_append, List.map_cons, follows_append_cons] at hafter
  have hfree := he.holds.freeChain
  rw [frees_append, frees_cons_of_free he.freed.free, follows_append_cons] at hfree
  have hbefore := h.layout.header_lt_of_mem
  have hpast := he.holds.layout.header_lt_of_mem
  have hsegment : ∀ k ∈ l₁ ++ c :: l₂, s.IsSegment base k.header :=
    fun k hk => h.isSegment_iff.mpr ⟨k, hk, rfl⟩
  have hsegment' : ∀ k ∈ L ++ e :: R, s'.IsSegment base k.header :=
    fun k hk => he.holds.isSegment_iff.mpr ⟨k, hk, rfl⟩
  have hself : s'.IsFree base e.header :=
    he.holds.isFree_iff.mpr ⟨e, by simp, he.freed.free, rfl⟩
  have hextent : c.header ∈ s'.extent e.header := by
    rw [he.holds.extent_eq (by simp) he.freed.free]
    exact ⟨he.freed.header_le, c.header_lt_finish.trans_le he.freed.finish_le⟩
  have honList : ∀ y, s'.OnFreeList y ↔ y ∈ frees (L ++ e :: R) :=
    fun y => he.holds.onFreeList_iff
  have heList : s'.OnFreeList e.header :=
    (honList _).mpr (mem_frees.mpr ⟨e, by simp, he.freed.free, rfl⟩)
  rcases hx with rfl | ⟨k, hk, rfl⟩ | ⟨g, hg, rfl⟩ | rfl | hx | hx | hx
  · exact .inl rfl
  · have hkmem := List.mem_of_getLast? hk
    have hlt := hbefore.1 k hkmem
    refine .inr (.inl ⟨hsegment c (by simp), hsegment k (by simp [hkmem]), .inr ⟨by omega, ?_⟩⟩)
    apply hsegments.1.next_getLast
    rw [List.getLast?_map, hk, Option.map_some]
  · have hgmem := List.mem_of_mem_head? hg
    have hlt := hbefore.2 g hgmem
    refine .inr (.inl ⟨hsegment c (by simp), hsegment g (by simp [hgmem]), .inl ⟨by omega, ?_⟩⟩)
    obtain ⟨l, rfl⟩ := List.head?_eq_some_iff.mp hg
    exact hsegments.2.1
  · exact .inr (.inr ⟨e.header, hself, hextent, .inl rfl⟩)
  · obtain ⟨k, hk, rfl⟩ := List.mem_map.mp (List.mem_of_mem_head? hx)
    have hlt := hpast.2 k hk
    refine .inr (.inr ⟨e.header, hself, hextent, .inr (.inl ⟨hsegment' e (by simp),
      hsegment' k (by simp [hk]), .inl ⟨by omega, ?_⟩⟩)⟩)
    have hnext : s'.memory.read e.header .nextSegment = (R.map (·.header)).head?.getD 0 :=
      hafter.2.eq_head?_getD
    rw [hnext, hx, Option.getD_some]
  · obtain ⟨k, hk, hkfree, rfl⟩ := mem_frees.mp (List.mem_of_mem_head? hx)
    have hlt := hpast.2 k hk
    refine .inr (.inr ⟨e.header, hself, hextent, .inr (.inr ⟨heList, (honList _).mpr ?_,
      .inl ⟨by omega, ?_⟩⟩)⟩)
    · exact mem_frees.mpr ⟨k, by simp [hk], hkfree, rfl⟩
    · have hnext : s'.memory.read e.header .nextFreeSegment = (frees R).head?.getD 0 :=
        hfree.2.eq_head?_getD
      rw [hnext, hx, Option.getD_some]
  · obtain ⟨k, hk, hkfree, rfl⟩ := mem_frees.mp (List.mem_of_getLast? hx)
    have hlt := hpast.1 k hk
    refine .inr (.inr ⟨e.header, hself, hextent, .inr (.inr ⟨heList, (honList _).mpr ?_,
      .inr ⟨by omega, ?_⟩⟩)⟩)
    · exact mem_frees.mpr ⟨k, by simp [hk], hkfree, rfl⟩
    · exact hfree.1.next_getLast hx

end States

section Runs

variable {base index : Nat} {s s' : HeapState} {r r' : HeapRun} {l₁ l₂ chain loose : List Segment}
  {c : Segment} {address : Nat}

/-- The headers of a layout overlap no payload of a live block. -/
theorem Owned.payload_clear (h : Owned base r chain loose) {b : Nat × Nat} (hb : b ∈ r.live)
    {k : Segment} (hk : k ∈ chain) :
    Disjoint (payload b) (Set.Ico k.header (k.header + headerSize)) := by
  obtain ⟨g, hg, -, hbg, hsize⟩ := h.live b hb
  apply disjoint_Ico_of_clear
  by_cases hgk : g = k
  · right
    rw [hbg, hgk]
  · have hclear := h.holds.layout.clear_of_ne hg (List.mem_append_left _ hk) hgk
    simp only [Segment.Clear, Segment.finish, headerSize] at hclear hbg ⊢
    rcases hclear with hlt | hlt <;> omega

/-- The freed block has a segment on the chain, and `free` has the effect of giving it back. -/
theorem Owned.freeEffect (h : Owned base r chain loose)
    (hlive : address ∈ r.live.map Prod.fst)
    (hmerges : (HeapCall.free address).Merges base r) :
    ∃ l₁ c l₂ L e R, chain = l₁ ++ c :: l₂ ∧ c.free = false ∧ address = c.header + headerSize ∧
      headerOf address = c.header ∧ r.heap.memory.read c.header .memoryLength = c.size ∧
      FreeEffect base r.heap.forgetWrites (Heap.free address r.heap.forgetWrites) l₁ c l₂
        loose L e R := by
  obtain ⟨hcurrent, hmerge⟩ := hmerges
  obtain ⟨l₁, c, l₂, rfl, hclive, haddress, hheader⟩ := h.exists_segment hlive hcurrent
  have hcurrent : r.CurrentFree base (headerOf address) := hcurrent
  have hmerge : r.MergesFree base (headerOf address) := hmerge
  rw [hheader] at hcurrent hmerge
  have hlinks := h.freeLinks hclive hcurrent
  have hmergeLinks : MergeLinks r.heap.memory l₁ c l₂ :=
    h.holds.mergeLinks hclive hmerge
  obtain ⟨L, e, R, he⟩ := h.holds.forgetWrites.freeEffect hclive hlinks.forgetWrites
    ⟨hmergeLinks.nextFree, hmergeLinks.previous, hmergeLinks.next⟩
  rw [show c.header + 24 = address from haddress.symm] at he
  exact ⟨l₁, c, l₂, L, e, R, rfl, hclive, haddress, hheader, hlinks.length, he⟩

/-- Giving back a block whose links are current, when no two free segments touch. -/
theorem Owned.freesExactly (h : Owned base r chain loose) (hcoalesced : r.heap.Coalesced base)
    (hlive : address ∈ r.live.map Prod.fst)
    (hmerges : (HeapCall.free address).Merges base r) :
    FreesExactly base r address (Heap.free address r.heap.forgetWrites) := by
  obtain ⟨l₁, c, l₂, L, e, R, rfl, hclive, haddress, hheader, hlength, he⟩ :=
    h.freeEffect hlive hmerges
  have hsegment : ∀ b ∈ r.live, b.1 ≠ address → ∃ k ∈ l₁ ++ l₂ ++ loose, k.free = false ∧
      headerOf b.1 = k.header := by
    intro b hb hne
    obtain ⟨k, hk, hklive, hbk, -⟩ := h.live b hb
    refine ⟨k, ?_, hklive, ?_⟩
    · have hkc : k ≠ c := by
        rintro rfl
        exact hne (hbk.trans haddress.symm)
      rcases List.mem_append.mp hk with hk | hk
      · exact List.mem_append_left _ (mem_append_of_ne hk hkc)
      · exact List.mem_append_right _ hk
    · have hfin := (h.holds.layout.inside k hk).2
      have hlt := k.header_lt_finish
      have hlimit := h.holds.layout.limit
      simp only [headerOf, hbk, headerSize, u32]
      omega
  have hwrites := he.writes rfl
  have hclear : ∀ b ∈ r.live, ∀ x ∈ (Heap.free address r.heap.forgetWrites).memory.written,
      Disjoint (payload b) (Set.Ico x (x + headerSize)) := by
    intro b hb x hx
    obtain ⟨k, hk, rfl⟩ := he.freed.exists_of_mem_beside (hwrites x hx)
    exact h.payload_clear hb hk
  have hbytes := h.holds.freeBytes_eq
  have hextent : r.heap.extent (headerOf address) = Set.Ico c.header c.finish := by
    rw [HeapState.extent, hheader, hlength, Segment.finish]
  constructor
  · intro b hb hne
    obtain ⟨k, hk, hklive, hbk⟩ := hsegment b hb hne
    rw [hbk]
    exact he.length k hk hklive
  · intro b hb hne
    obtain ⟨k, hk, hklive, hbk⟩ := hsegment b hb hne
    rw [hbk]
    exact he.flag k hk hklive
  · intro b hb hne a ha
    rcases Memory.Tracks.free (s := r.heap.forgetWrites) address a with heq | ⟨x, hx, f, rfl⟩
    · exact heq
    · exfalso
      obtain ⟨k, hk, hkx⟩ := he.freed.exists_of_mem_beside (hwrites x hx)
      have hfin := (h.holds.layout.inside k (List.mem_append_left _ hk)).2
      have hlt := k.header_add_le_finish
      have hlimit := h.holds.layout.limit
      have hf := f.offset_lt
      rw [u32_of_lt (by omega)] at ha
      exact Set.disjoint_left.mp (hclear b hb x hx) ha
        ⟨Nat.le_add_right _ _, by rw [headerSize]; omega⟩
  · exact fun b hb _ => hclear b hb
  · intro x hx
    rw [hheader]
    exact he.around h.holds.forgetWrites (hwrites x hx)
  · rw [he.holds.freeBytes_eq, hbytes, hextent]
    ext a
    have hlist : Covered (l₁ ++ c :: l₂) a ↔ Covered (l₁ ++ l₂) a := by
      rw [covered_append, covered_append, covered_cons_of_live hclive]
    exact (he.freed.covered a).trans (or_congr_left hlist.symm)
  · rw [hbytes, hextent, Set.disjoint_left]
    rintro a ⟨k, hk, hkfree, hka⟩ ⟨hca, hac⟩
    have hclear := h.holds.layout.clear_of_ne (g := k) (k := c) (List.mem_append_left _ hk)
      (by simp) (by rintro rfl; simp [hclive] at hkfree)
    rcases hclear with hlt | hlt <;> omega
  · exact he.holds.coalesced_iff.mpr (he.spaced (h.holds.coalesced_iff.mp hcoalesced))

/-- A call of `malloc` makes no two free segments touch. -/
theorem Holds.spaced_malloc {n : Nat} {frames : List Frame} {p : Nat}
    (h : Holds base s chain loose)
    (hindex : s.nextFreePageIndex + frames.length ≤ 1048576) (hn : n ≤ 4294967288)
    (hcurrent : s.CurrentFit base (roundSize n) frames)
    (hmalloc : Heap.malloc n frames s = some (s', p)) (hspaced : Spaced chain) :
    s'.Coalesced base := by
  rw [Heap.malloc] at hmalloc
  cases hfit : Heap.firstFit s.memory (roundSize n) s.firstFreeSegment with
  | none => simp [hfit] at hmalloc
  | some c =>
      obtain ⟨g, l₁, l₂, rfl, hfree, rfl, hlast⟩ := h.firstFit hfit
      have hcond := hcurrent _ hfit
      simp only [hfit] at hmalloc
      by_cases hsmall : s.memory.read g.header .memoryLength < roundSize n
      · rw [if_pos hsmall] at hmalloc hcond
        obtain rfl := hlast hsmall
        obtain ⟨-, -, hle, h8⟩ := roundSize_spec hn
        obtain ⟨chain', loose', hholds, -, -, -, hchain⟩ :=
          h.malloc_extend hfree hindex (extensionPages_pos h8 (by omega) hle) hcond.2 hmalloc
        rw [hholds.coalesced_iff]
        rcases hchain with rfl | ⟨b, rfl⟩
        · exact hspaced
        · exact hspaced.extend
      · rw [if_neg hsmall, Option.some.injEq] at hmalloc
        rw [if_neg hsmall] at hcond
        have hroom : roundSize n + 24 ≤ g.size := by
          rw [← h.chained.length g (by simp) hfree]
          exact hcond.room
        have hholds := h.mallocSplit hfree hroom (h.splitLinks hfree hcond)
        rw [hmalloc] at hholds
        exact hholds.coalesced_iff.mpr (hspaced.split hfree hroom)

/-- In a run of calls that merge what they free, no two free segments touch. -/
theorem coalesced_of_reach
    (run : (heapMachine base index).Reach (fun r a => a.Merges base r) r) :
    (∃ chain loose, Owned base r chain loose) ∧ r.heap.Coalesced base := by
  apply run.invariant
  · rintro s ⟨⟨hbase, hindex, hlimit⟩, memory, first, rfl⟩
    have h : Owned base ⟨initialiseHeap base PGSIZE ⟨memory, first, index⟩, []⟩
        [⟨base, PGSIZE - headerSize, true⟩] [] := Owned.start hbase hindex hlimit
    exact ⟨⟨_, _, h⟩, h.holds.coalesced_iff.mpr (List.isChain_singleton _)⟩
  · rintro s a s' ⟨⟨chain, loose, h⟩, hcoalesced⟩ hmerges ⟨hproper, hcall⟩
    refine ⟨h.step hproper hmerges.1 hcall, ?_⟩
    cases a with
    | malloc size frames =>
        rw [HeapRun.call] at hcall
        obtain ⟨⟨heap, p⟩, hmalloc, rfl⟩ := Option.map_eq_some_iff.mp hcall
        have hcurrent : (HeapCall.malloc size frames).Current base s := hmerges.1
        exact h.holds.forgetWrites.spaced_malloc (h.holds.index_le hproper) hcurrent.1
          hcurrent.2.forgetWrites hmalloc (h.holds.coalesced_iff.mp hcoalesced)
    | free address =>
        rw [HeapRun.call] at hcall
        split at hcall
        · rename_i hlive
          obtain rfl := Option.some.inj hcall
          exact (h.freesExactly hcoalesced hlive hmerges).coalesced
        · exact absurd hcall (by simp)

end Runs

end NickOS3.Heap
