import NickOS3.Heap.Current
import Mathlib.Data.List.Sort

/-!
# The free list

`nextFreeSegment` leads through the free segments in address order, and
`previousFreeSegment` back. The forward direction belongs to every layout; here it is
joined by the back links, which `malloc` and `free` repair only in part: a segment that is
split before the end of the list stays the one its old successor points back to, and a
merge at the end of the list writes through the null pointer into the header at address 0.
-/

namespace NickOS3.Heap

open Foundation

/-- The nodes of the free list are the free segments, in order and linked back, and
`firstFreeSegment` is the lowest of them. -/
structure FreeListed (base : Nat) (r : HeapRun) (fs : List Nat) : Prop where
  next : Follows (r.heap.memory.read · .nextFreeSegment) r.heap.firstFreeSegment fs 0
  sorted : fs.Pairwise (· < ·)
  free : ∀ x, x ∈ fs ↔ r.IsHeader base x ∧ r.heap.memory.read x .free ≠ 0
  previous : Mirrors (r.heap.memory.read · .previousFreeSegment) 0 fs
  lowest : r.heap.firstFreeSegment ∈ fs ∧ ∀ x ∈ fs, r.heap.firstFreeSegment ≤ x

/-- What the back links need of a freed block: null before the first free segment, no
link to a free segment before it, and no merge with the last segment while the header at
address 0 is free. -/
structure HeapState.CurrentBack (s : HeapState) (h : Nat) : Prop where
  first : h < s.firstFreeSegment → s.memory.read h .previousFreeSegment = 0
  next : s.OnFreeList (s.memory.read h .nextFreeSegment) →
    s.memory.read h .nextFreeSegment = 0 ∨ h < s.memory.read h .nextFreeSegment
  null : s.firstFreeSegment = 0 →
    s.memory.read (s.memory.read h .nextSegment) .free ≠ 0 →
    s.memory.read (s.memory.read h .nextSegment) .nextSegment ≠ 0

/-- What keeps the free list, said of the state before a call: the links that the call
reads are current, and `malloc` splits only the last free segment. -/
def HeapCall.KeepsFreeList (base : Nat) (r : HeapRun) (a : HeapCall) : Prop :=
  a.Current base r ∧
    match a with
    | .malloc size _ =>
        ∀ c, firstFit r.heap.memory (roundSize size) r.heap.firstFreeSegment = some c →
          roundSize size ≤ r.heap.memory.read c .memoryLength →
          r.heap.memory.read c .nextFreeSegment = 0
    | .free address => r.heap.CurrentBack (headerOf address)

section Merge

variable {base top : Nat} {m m' : Memory} {l₁ l₂ loose : List Segment} {c : Segment}

/-- A merge at `c` links back what is behind it to `c`, and what is before it stays linked
back unless the write through the null pointer hits it. -/
theorem MergedBack.mirrors (h : MergedBack m m' l₁ c l₂) (hc : c.free = true)
    (hlayout : Layout base top (l₁ ++ c :: l₂) loose)
    (hbefore : Mirrors (m.read · .previousFreeSegment) 0 (frees l₁ ++ [c.header]))
    (hafter : ∃ p, Mirrors (m.read · .previousFreeSegment) p (frees l₂))
    (hnull : l₂ = [] → 0 ∉ frees l₁ ++ [c.header]) :
    BackLinked m' (l₁ ++ c :: l₂) := by
  have hfree : ∀ x ∈ frees l₁ ++ [c.header], ∃ k ∈ l₁ ++ c :: l₂, k.header = x ∧
      ∀ e ∈ l₂, x < e.header := by
    intro x hx
    rcases List.mem_append.mp hx with hx | hx
    · obtain ⟨k, hk, -, rfl⟩ := mem_frees.mp hx
      exact ⟨k, by simp [hk], rfl, fun e he => hlayout.header_lt hk he⟩
    · rw [List.mem_singleton.mp hx]
      exact ⟨c, by simp, rfl, hlayout.header_lt_of_mem.2⟩
  have hkept : ∀ x ∈ frees l₁ ++ [c.header],
      m'.read x .previousFreeSegment = m.read x .previousFreeSegment := by
    intro x hx
    obtain ⟨k, hk, rfl, hlt⟩ := hfree x hx
    rw [h k hk, if_neg]
    rintro (heq | heq)
    · cases l₂ with
      | nil =>
          have h0 : k.header = 0 := heq
          exact hnull rfl (h0 ▸ hx)
      | cons e l => exact (hlt e (by simp)).ne heq
    · cases hl : frees l₂ with
      | nil =>
          rw [hl] at heq
          have h0 : k.header = 0 := heq
          exact hnull (hlayout.eq_nil_of_frees hl) (h0 ▸ hx)
      | cons y l =>
          obtain ⟨e, he, -, hey⟩ := mem_frees.mp (hl ▸ List.mem_cons_self : y ∈ frees l₂)
          rw [hl] at heq
          exact (hlt e he).ne (heq.trans hey.symm)
  rw [BackLinked, frees_append, frees_cons_of_free hc, ← List.singleton_append,
    ← List.append_assoc, mirrors_append]
  refine ⟨hbefore.congr hkept, ?_⟩
  rw [List.getLast?_concat, Option.getD_some]
  obtain ⟨p, hafter⟩ := hafter
  have hsorted := hlayout.sorted_frees
  rw [frees_append, frees_cons_of_free hc] at hsorted
  have hsorted := (List.pairwise_cons.mp (List.pairwise_append.mp hsorted).2.1).2
  cases hl : frees l₂ with
  | nil => trivial
  | cons y l =>
      rw [hl] at hafter hsorted
      have hmem : ∀ x ∈ y :: l, ∃ k ∈ l₂, k.free = true ∧ k.header = x :=
        fun x hx => mem_frees.mp (hl ▸ hx)
      constructor
      · obtain ⟨k, hk, -, hky⟩ := hmem y (by simp)
        have hread := h k (by simp [hk])
        rw [hl, hky, if_pos (.inr rfl)] at hread
        exact hread
      · apply hafter.2.congr
        intro x hx
        obtain ⟨k, hk, hkf, rfl⟩ := hmem x (by simp [hx])
        have hyk := (List.pairwise_cons.mp hsorted).1 k.header hx
        rw [h k (by simp [hk]), if_neg]
        rintro (heq | heq)
        · cases l₂ with
          | nil => simp at hk
          | cons e l₃ =>
              -- the first segment behind `c` is no further than the first free one
              have hke : k.header = e.header := heq
              obtain ⟨d, hd, -, hdy⟩ := hmem y (by simp)
              have hsegments := hlayout.sorted
              have hsegments := (List.pairwise_cons.mp
                (List.pairwise_append.mp hsegments).2.1).2
              rcases List.mem_cons.mp hd with rfl | hd
              · omega
              · have := (List.pairwise_cons.mp hsegments).1 d hd
                omega
        · rw [hl] at heq
          exact hyk.ne heq.symm

end Merge

section Calls

variable {base size : Nat} {s s' : HeapState} {l₁ l₂ chain loose : List Segment} {c : Segment}

/-- Taking a block from the last free segment keeps the back links. -/
theorem Holds.backLinked_split (h : Holds base s (l₁ ++ c :: l₂) loose) (hfree : c.free = true)
    (hsize : size + 24 ≤ c.size) (hlinks : SplitLinks s.memory l₁ c)
    (hlast : s.memory.read c.header .nextFreeSegment = 0)
    (hback : BackLinked s.memory (l₁ ++ c :: l₂)) :
    BackLinked (Heap.mallocSplit size c.header s).1.memory
      (l₁ ++ c.take size :: c.rest size :: l₂) := by
  have he := h.splitEffect hfree hsize hlinks
  generalize (Heap.mallocSplit size c.header s).1 = s' at he ⊢
  have hnil : frees l₂ = [] := by
    have hchain := h.freeChain
    rw [frees_append, frees_cons_of_free hfree, follows_append_cons, hlast] at hchain
    cases hl : frees l₂ with
    | nil => rfl
    | cons y l =>
        obtain ⟨k, hk, -, hky⟩ := mem_frees.mp (hl ▸ List.mem_cons_self : y ∈ frees l₂)
        have hlt := h.layout.header_lt_of_mem.2 k hk
        rw [hl] at hchain
        have h0 : 0 = y := hchain.2.1
        omega
  rw [BackLinked, frees_append, frees_cons_of_free hfree, hnil, mirrors_append] at hback
  rw [BackLinked, frees_append, frees_cons_of_live (by simp), frees_cons_of_free (by simp), hnil,
    mirrors_append]
  constructor
  · exact mirrors_frees_congr hback.1 fun k hk => he.previousFree k (by simp [hk])
  · exact ⟨he.restPreviousFree.trans hback.2.1, trivial⟩

/-- The back links up to the freed segment, once the free links are repaired. -/
theorem Holds.mirrors_relinked (h : Holds base s (l₁ ++ c :: l₂) loose)
    (hlive : c.free = false) (hlinks : FreeLinks s.memory l₁ c l₂ loose)
    (hcurrent : s.CurrentBack c.header) (hback : BackLinked s.memory (l₁ ++ c :: l₂)) :
    Mirrors ((relinked c.header s.memory).read · .previousFreeSegment) 0
      (frees l₁ ++ [c.header]) := by
  have he := h.relinkEffect hlive hlinks
  rw [BackLinked, frees_append, frees_cons_of_live hlive, mirrors_append] at hback
  rw [mirrors_append]
  constructor
  · apply hback.1.congr
    intro x hx
    obtain ⟨k, hk, -, rfl⟩ := mem_frees.mp hx
    rw [he.previousFree k (by simp [hk]), if_neg]
    rintro ⟨h0, heq, -⟩
    have hon : s.OnFreeList k.header := h.onFreeList_iff.mpr (by
      rw [frees_append]
      exact List.mem_append_left _ hx)
    have hlt := h.layout.header_lt_of_mem.1 k hk
    rcases hcurrent.next (heq ▸ hon) with hnull | hnext
    · exact h0 (heq.trans hnull)
    · omega
  · refine ⟨he.previousFreeSelf.trans ?_, trivial⟩
    cases hl : (frees l₁).getLast? with
    | some x => exact (hlinks.free x hl).2
    | none =>
        apply hcurrent.first
        have hchain := h.freeChain
        rw [frees_append, frees_cons_of_live hlive, List.getLast?_eq_none_iff.mp hl,
          List.nil_append] at hchain
        obtain ⟨y, l, hy, hlt⟩ := h.layout.frees_after hlive
        rw [hy] at hchain
        rw [hchain.1]
        exact hlt

/-- The back links behind a segment `p` that is itself behind the freed one. -/
theorem Holds.mirrors_after (h : Holds base s (l₁ ++ c :: l₂) loose) (hlive : c.free = false)
    (hlinks : FreeLinks s.memory l₁ c l₂ loose) {p : Nat} {l : List Nat}
    (hl : frees l₂ = p :: l) (hback : Mirrors (s.memory.read · .previousFreeSegment) p l) :
    Mirrors ((relinked c.header s.memory).read · .previousFreeSegment) p l := by
  have he := h.relinkEffect hlive hlinks
  apply hback.congr
  intro x hx
  obtain ⟨k, hk, -, rfl⟩ := mem_frees.mp (hl ▸ List.mem_cons_of_mem p hx : x ∈ frees l₂)
  obtain ⟨y, l', hy, hlt⟩ := h.layout.frees_after hlive
  obtain ⟨rfl, rfl⟩ := List.cons.inj (hl.symm.trans hy)
  have hsorted := h.layout.sorted_frees
  rw [frees_append, frees_cons_of_live hlive, hl] at hsorted
  have hle := hback.le_prev (List.pairwise_append.mp hsorted).2.1 hx
  rw [he.previousFree k (by simp [hk]), if_neg]
  rintro ⟨-, -, hlt'⟩
  omega

/-- With a current link, `free` makes the next free segment lead back to the freed one. -/
theorem Holds.mirrors_head (h : Holds base s (l₁ ++ c :: l₂) loose) (hlive : c.free = false)
    (hlinks : FreeLinks s.memory l₁ c l₂ loose)
    (hhead : (frees l₂).head? = some (s.memory.read c.header .nextFreeSegment))
    (hback : BackLinked s.memory (l₁ ++ c :: l₂)) :
    Mirrors ((relinked c.header s.memory).read · .previousFreeSegment) c.header (frees l₂) := by
  have he := h.relinkEffect hlive hlinks
  obtain ⟨y, l, hl, hlt⟩ := h.layout.frees_after hlive
  obtain ⟨k, hk, -, rfl⟩ := mem_frees.mp (hl ▸ List.mem_cons_self : y ∈ frees l₂)
  rw [BackLinked, frees_append, frees_cons_of_live hlive, hl, mirrors_append] at hback
  rw [hl, List.head?_cons, Option.some.injEq] at hhead
  rw [hl]
  refine ⟨?_, h.mirrors_after hlive hlinks hl hback.2.2⟩
  change (relinked c.header s.memory).read k.header .previousFreeSegment = c.header
  rw [he.previousFree k (by simp [hk])]
  by_cases hbelow : s.memory.read k.header .previousFreeSegment < c.header
  · rw [if_pos ⟨by omega, hhead, hbelow⟩]
  · rw [if_neg (fun hand => hbelow hand.2.2)]
    -- the link leads to the free segment before, unless both are null
    have hprevious : s.memory.read k.header .previousFreeSegment =
        (frees l₁).getLast?.getD 0 := hback.2.1
    cases hlast : (frees l₁).getLast? with
    | none =>
        rw [hlast, Option.getD_none] at hprevious
        omega
    | some x =>
        obtain ⟨g, hg, -, rfl⟩ := mem_frees.mp (List.mem_of_getLast? hlast)
        have hgc := h.layout.header_lt_of_mem.1 g hg
        rw [hlast, Option.getD_some] at hprevious
        omega

/-- When the last segment is merged the header at address 0 is not free, so that the write
through the null pointer does no harm. -/
theorem Holds.null_notMem {m m' : Memory} {y : Nat} {c' : Segment} {l₂' : List Segment}
    (h : Holds base s (l₁ ++ c :: l₂) loose) (hcurrent : s.CurrentBack c.header)
    (hnext : NextMerged m m' y l₁ c.release l₂ c' l₂')
    (hnil : l₂' = []) : 0 ∉ frees l₁ ++ [c.header] := by
  cases hnext with
  | keep => simp at hnil
  | @merge g _ hfree h0 _ =>
      subst hnil
      intro hmem
      have hzero : 0 ∈ frees l₁ := by
        rcases List.mem_append.mp hmem with hmem | hmem
        · exact hmem
        · exact absurd (List.mem_singleton.mp hmem).symm h0
      have hfirst : s.firstFreeSegment = 0 := by
        have hchain := h.freeChain
        have hsorted := h.layout.sorted_frees
        rw [frees_append] at hchain hsorted
        cases hl : frees l₁ with
        | nil => simp [hl] at hzero
        | cons x l =>
            rw [hl] at hchain hsorted hzero
            rcases List.mem_cons.mp hzero with rfl | hzero
            · exact hchain.1
            · have hlt := (List.pairwise_cons.mp hsorted).1 0 (List.mem_append_left _ hzero)
              omega
      have hsegments := h.chained.next
      rw [List.map_append, List.map_cons, List.map_cons, follows_append_cons] at hsegments
      have hc : s.memory.read c.header .nextSegment = g.header := hsegments.2.1
      have hg : s.memory.read g.header .nextSegment = 0 := hsegments.2.2
      apply hcurrent.null hfirst
      · rw [hc]
        exact (h.chained.flag g (by simp)).mpr hfree
      · rw [hc]
        exact hg

/-- Freeing a block whose links are current keeps the back links. -/
theorem Holds.backLinked_free (h : Holds base s (l₁ ++ c :: l₂) loose)
    (hlive : c.free = false) (hlinks : FreeLinks s.memory l₁ c l₂ loose)
    (hcurrent : s.CurrentBack c.header) (hback : BackLinked s.memory (l₁ ++ c :: l₂)) :
    ∃ chain, Holds base (Heap.free (c.header + 24) s) chain loose ∧
      BackLinked (Heap.free (c.header + 24) s).memory chain := by
  obtain ⟨c', l₂', chain, hholds, -, hlayout, hc', hfree', hnext, hprevious⟩ :=
    h.free hlive hlinks
  refine ⟨chain, hholds, ?_⟩
  have hbefore := h.mirrors_relinked hlive hlinks hcurrent hback
  have hnull : l₂' = [] → 0 ∉ frees l₁ ++ [c.header] :=
    h.null_notMem hcurrent hnext
  have hmerged : BackLinked (Heap.mergeNext c.header (relinked c.header s.memory))
      (l₁ ++ c' :: l₂') := by
    cases hnext with
    | keep _ hhead hsame =>
        have hafter := h.mirrors_head hlive hlinks hhead hback
        refine mirrors_frees_congr ?_ hsame
        rw [frees_append, frees_cons_of_free rfl, ← List.singleton_append, ← List.append_assoc,
          mirrors_append, List.getLast?_concat, Option.getD_some]
        exact ⟨hbefore, hafter⟩
    | merge hfree h0 _ hmerge =>
        apply hmerge.mirrors rfl hlayout hbefore _ hnull
        rw [BackLinked, frees_append, frees_cons_of_live hlive, frees_cons_of_free hfree,
          mirrors_append] at hback
        exact ⟨_, h.mirrors_after hlive hlinks (frees_cons_of_free hfree _) hback.2.2⟩
  cases hprevious with
  | keep _ hsame => exact mirrors_frees_congr hmerged hsame
  | @merge l₀ _ k _ hfree _ hmerge =>
      rw [BackLinked, frees_append, frees_cons_of_free hfree', mirrors_append] at hmerged
      rw [frees_append, frees_cons_of_free hfree, frees_nil] at hmerged hnull
      apply hmerge.mirrors rfl hholds.layout hmerged.1 ⟨_, hmerged.2.2⟩
      intro hnil h0
      exact hnull hnil (List.mem_append_left _ h0)

/-- A call of `malloc` that splits only the last free segment keeps the back links. -/
theorem Holds.backLinked_malloc {n : Nat} {frames : List Frame} {p : Nat}
    (h : Holds base s chain loose)
    (hindex : s.nextFreePageIndex + frames.length ≤ 1048576) (hn : n ≤ 4294967288)
    (hcurrent : s.CurrentFit base (roundSize n) frames)
    (hlast : ∀ c, Heap.firstFit s.memory (roundSize n) s.firstFreeSegment = some c →
      roundSize n ≤ s.memory.read c .memoryLength → s.memory.read c .nextFreeSegment = 0)
    (hmalloc : Heap.malloc n frames s = some (s', p)) (hback : BackLinked s.memory chain) :
    ∃ chain' loose', Holds base s' chain' loose' ∧ BackLinked s'.memory chain' := by
  rw [Heap.malloc] at hmalloc
  cases hfit : Heap.firstFit s.memory (roundSize n) s.firstFreeSegment with
  | none => simp [hfit] at hmalloc
  | some c =>
      obtain ⟨g, l₁, l₂, rfl, hfree, rfl, hend⟩ := h.firstFit hfit
      have hcond := hcurrent _ hfit
      simp only [hfit] at hmalloc
      by_cases hsmall : s.memory.read g.header .memoryLength < roundSize n
      · rw [if_pos hsmall] at hmalloc hcond
        obtain rfl := hend hsmall
        obtain ⟨-, -, hle, h8⟩ := roundSize_spec hn
        obtain ⟨chain', loose', hholds, -, -, hkept, -⟩ :=
          h.malloc_extend hfree hindex (extensionPages_pos h8 (by omega) hle) hcond.2 hmalloc
        exact ⟨chain', loose', hholds, hkept hback⟩
      · rw [if_neg hsmall, Option.some.injEq] at hmalloc
        rw [if_neg hsmall] at hcond
        have hroom : roundSize n + 24 ≤ g.size := by
          rw [← h.chained.length g (by simp) hfree]
          exact hcond.room
        have hlinks := h.splitLinks hfree hcond
        have hholds := h.mallocSplit hfree hroom hlinks
        have hkept := h.backLinked_split hfree hroom hlinks
          (hlast _ hfit (Nat.not_lt.mp hsmall)) hback
        rw [hmalloc] at hholds hkept
        exact ⟨_, loose, hholds, hkept⟩

/-- The free segments of two layouts in the same memory are the same. -/
theorem Holds.frees_unique {chain' loose' : List Segment} (h : Holds base s chain loose)
    (h' : Holds base s chain' loose') : frees chain = frees chain' := by
  apply h.layout.sorted_frees.eq_of_mem_iff h'.layout.sorted_frees
  intro x
  rw [← h.onFreeList_iff, ← h'.onFreeList_iff]

end Calls

section Runs

variable {base index : Nat} {r r' : HeapRun} {chain loose : List Segment}

/-- The free segments of a layout with back links are the nodes of the free list. -/
theorem Owned.freeListed (h : Owned base r chain loose)
    (hback : BackLinked r.heap.memory chain) : FreeListed base r (frees chain) := by
  have hsorted := h.holds.layout.sorted_frees
  constructor
  · exact h.holds.freeChain
  · exact hsorted
  · intro x
    constructor
    · intro hx
      obtain ⟨g, hg, hfree, rfl⟩ := mem_frees.mp hx
      have hg := List.mem_append_left loose hg
      exact ⟨h.isHeader hg, (h.holds.chained.flag g hg).mpr hfree⟩
    · rintro ⟨hx, hflag⟩
      obtain ⟨g, hg, rfl⟩ := h.exists_of_isHeader hx
      have hfree := (h.holds.chained.flag g hg).mp hflag
      rcases List.mem_append.mp hg with hg | hg
      · exact mem_frees.mpr ⟨g, hg, hfree, rfl⟩
      · rw [h.holds.layout.live g hg] at hfree
        exact absurd hfree (by decide)
  · exact hback
  · have hchain := h.holds.freeChain
    obtain ⟨l, g, rfl, hfree⟩ := h.holds.layout.last
    cases hl : frees (l ++ [g]) with
    | nil =>
        rw [frees_append, frees_cons_of_free hfree] at hl
        simp at hl
    | cons x fs =>
        rw [hl] at hchain hsorted
        have hfirst : r.heap.firstFreeSegment = x := hchain.1
        rw [hfirst]
        refine ⟨List.mem_cons_self, fun y hy => ?_⟩
        rcases List.mem_cons.mp hy with rfl | hy
        · exact le_rfl
        · exact ((List.pairwise_cons.mp hsorted).1 y hy).le

/-- A call that keeps the free list, on a layout with back links. -/
theorem Owned.backLinked_step {a : HeapCall} (h : Owned base r chain loose)
    (hback : BackLinked r.heap.memory chain) (hproper : a.Proper r)
    (hkeeps : a.KeepsFreeList base r) (hcall : r.call a = some r') :
    ∃ chain' loose', Owned base r' chain' loose' ∧ BackLinked r'.heap.memory chain' := by
  obtain ⟨hcurrent, hkeeps⟩ := hkeeps
  obtain ⟨chain', loose', h'⟩ := h.step hproper hcurrent hcall
  refine ⟨chain', loose', h', ?_⟩
  have hkept : ∃ chain'' loose'', Holds base r'.heap chain'' loose'' ∧
      BackLinked r'.heap.memory chain'' := by
    cases a with
    | malloc size frames =>
        rw [HeapRun.call] at hcall
        obtain ⟨⟨heap, p⟩, hmalloc, rfl⟩ := Option.map_eq_some_iff.mp hcall
        exact h.holds.forgetWrites.backLinked_malloc (h.holds.index_le hproper) hcurrent.1
          hcurrent.2.forgetWrites hkeeps hmalloc hback
    | free address =>
        rw [HeapRun.call] at hcall
        split at hcall
        · rename_i hmem
          obtain rfl := Option.some.inj hcall
          obtain ⟨l₁, k, l₂, rfl, hlive, hbg, hheader⟩ := h.exists_segment hmem hcurrent
          have hcurrent : r.CurrentFree base (headerOf address) := hcurrent
          have hkeeps : r.heap.CurrentBack (headerOf address) := hkeeps
          rw [hheader] at hcurrent hkeeps
          obtain ⟨chain'', hholds, hkept⟩ := h.holds.forgetWrites.backLinked_free hlive
            (h.freeLinks hlive hcurrent).forgetWrites ⟨hkeeps.first, hkeeps.next, hkeeps.null⟩
            hback
          rw [show k.header + 24 = address from hbg.symm] at hholds hkept
          exact ⟨chain'', loose, hholds, hkept⟩
        · exact absurd hcall (by simp)
  obtain ⟨chain'', loose'', hholds, hkept⟩ := hkept
  rw [BackLinked, h'.holds.frees_unique hholds]
  exact hkept

theorem initialiseHeap_backLinked {first : Nat} {memory : Memory}
    (hlimit : base + 24 ≤ 4294967296) :
    BackLinked (initialiseHeap base PGSIZE ⟨memory, first, index⟩).memory
      [⟨base, PGSIZE - headerSize, true⟩] := by
  have hread := fun (m : Memory) f g v => m.read_write hlimit hlimit (.inl rfl) f g v
  simp [BackLinked, frees, initialiseHeap, hread]

end Runs

end NickOS3.Heap
