import NickOS3.Heap.Current
import NickOS3.Foundation.Tiling

/-!
# The chain of segments

The segments on the `nextSegment` chain tile the heap, and `previousSegment` runs back
along it. Only four of the six fields of a header matter for this; the links of the free
list may be stale as long as the headers they lead to overlap no header of the chain.
-/

namespace NickOS3.Heap

open Foundation

/-- The bytes of the heap: the first page, and the pages that `palloc_heap` gave. -/
def HeapRun.Mapped (base index : Nat) (r : HeapRun) (a : Nat) : Prop :=
  base ≤ a ∧ a < base + PGSIZE ∨
    index * PGSIZE ≤ a ∧ a < r.heap.nextFreePageIndex * PGSIZE

/-- The segments visited from the first header: they are in address order and linked
back, and with the recorded lengths they tile the pages of the heap. -/
structure ChainedSegments (base index : Nat) (r : HeapRun) (hs : List Nat) : Prop where
  next : Follows (r.heap.memory.read · .nextSegment) base hs 0
  sorted : hs.Pairwise (· < ·)
  previous : Mirrors (r.heap.memory.read · .previousSegment) 0 hs
  length : ∀ h ∈ hs, r.heap.memory.read h .memoryLength < 2147483648
  ends : ∀ h ∈ hs, h + headerSize + r.heap.memory.read h .memoryLength ∈ hs ∨
    ¬ r.Mapped base index (h + headerSize + r.heap.memory.read h .memoryLength)
  apart : hs.Pairwise fun h k => h + headerSize + r.heap.memory.read h .memoryLength ≤ k
  cover : ∀ a, r.Mapped base index a ↔
    ∃ h ∈ hs, h ≤ a ∧ a < h + headerSize + r.heap.memory.read h .memoryLength
  live : ∀ b ∈ r.live, headerOf b.1 ∈ hs

/-- The header at `t` overlaps no other header that `H` holds of. -/
def Clear (H : Nat → Prop) (t : Nat) : Prop :=
  t + headerSize ≤ 4294967296 ∧ ∀ x, H x → x = t ∨ Apart x t

theorem Clear.mono {H H' : Nat → Prop} {t : Nat} (h : Clear H t) (hle : ∀ x, H' x → H x) :
    Clear H' t :=
  ⟨h.1, fun x hx => h.2 x (hle x hx)⟩

/-- The fields that the chain is made of are the same in `m'`. -/
def SameChain (m m' : Memory) (hs : List Nat) : Prop :=
  ∀ x ∈ hs, ∀ f, f ≠ .nextFreeSegment → f ≠ .previousFreeSegment → m'.read x f = m.read x f

/-- Memory whose segments tile one page, the last of them free. -/
structure TiledPage (base : Nat) (m : Memory) (hs : List Nat) : Prop where
  next : Follows (m.read · .nextSegment) base hs 0
  tiled : Tiles (fun h => headerSize + m.read h .memoryLength) base hs (base + PGSIZE)
  previous : Mirrors (m.read · .previousSegment) 0 hs
  last : ∃ l c, hs = l ++ [c] ∧ m.read c .free ≠ 0

section Page

variable {base : Nat} {m m' : Memory} {hs : List Nat}

theorem TiledPage.congr (h : TiledPage base m hs) (hsame : SameChain m m' hs) :
    TiledPage base m' hs := by
  constructor
  · exact h.next.congr fun x hx => hsame x hx _ (by decide) (by decide)
  · apply Follows.congr h.tiled
    intro x hx
    simp only [hsame x hx .memoryLength (by decide) (by decide)]
  · exact h.previous.congr fun x hx => hsame x hx _ (by decide) (by decide)
  · obtain ⟨l, c, rfl, hc⟩ := h.last
    exact ⟨l, c, rfl, by rwa [hsame c (by simp) _ (by decide) (by decide)]⟩

theorem TiledPage.sorted (h : TiledPage base m hs) : hs.Pairwise (· < ·) :=
  h.tiled.sorted fun _ _ => by simp only [headerSize]; omega

theorem TiledPage.bounds (h : TiledPage base m hs) {x : Nat} (hx : x ∈ hs) :
    base ≤ x ∧ x + 24 + m.read x .memoryLength ≤ base + PGSIZE := by
  have hb := h.tiled.bounds.2 x hx
  simp only [headerSize] at hb
  omega

/-- The headers on the page and the null pointer do not overlap. -/
theorem TiledPage.separated (h : TiledPage base m hs) (hnull : base = 0 ∨ headerSize ≤ base)
    (hlimit : base + PGSIZE ≤ 4294967296) : Separated {x | x = 0 ∨ x ∈ hs} := by
  have happart : ∀ a ∈ hs, ∀ b ∈ hs, a ≠ b → Apart a b := by
    have hpairs : hs.Pairwise Apart := by
      apply h.tiled.pairwise.imp
      intro a b hle
      simp only [headerSize] at hle
      exact .inl (by omega)
    exact fun a ha b hb hne => hpairs.forall ha hb hne
  have hzero : ∀ a ∈ hs, a ≠ 0 → Apart 0 a := by
    intro a ha h0
    rcases hnull with rfl | hle
    · apply happart 0 _ a ha h0.symm
      obtain ⟨l, c, rfl, -⟩ := h.last
      exact List.mem_of_mem_head? (h.next.head_eq (by simp))
    · have := (h.bounds ha).1
      exact .inl (by rw [headerSize] at hle; omega)
  constructor
  · rintro a (rfl | ha)
    · decide
    · have := h.bounds ha
      omega
  · rintro a (rfl | ha) b (rfl | hb) hne
    · exact absurd rfl hne
    · exact hzero b hb hne.symm
    · exact (hzero a ha hne).symm
    · exact happart a ha b hb hne

end Page

section Split

variable {base size c : Nat} {s : HeapState} {l : List Nat}

/-- Taking a block from the last segment. -/
theorem TiledPage.mallocSplit (h : TiledPage base s.memory (l ++ [c]))
    (hnull : base = 0 ∨ headerSize ≤ base) (hlimit : base + PGSIZE ≤ 4294967296)
    (hroom : size + headerSize ≤ s.memory.read c .memoryLength)
    (hclear : s.memory.read c .previousFreeSegment = 0 ∨
      Clear (fun x => x ∈ l ++ [c] ∨ x = c + headerSize + size)
        (s.memory.read c .previousFreeSegment)) :
    TiledPage base (Heap.mallocSplit size c s).1.memory (l ++ [c] ++ [c + headerSize + size]) ∧
      (∀ x ∈ l, (Heap.mallocSplit size c s).1.memory.read x .free = s.memory.read x .free) ∧
      (Heap.mallocSplit size c s).1.memory.read c .free = 0 := by
  have hsep := h.separated hnull hlimit
  have hc := h.bounds (x := c) (by simp)
  have hbefore : ∀ x ∈ l, x + 24 + s.memory.read x .memoryLength ≤ c := by
    intro x hx
    have hp := h.tiled.pairwise
    rw [List.pairwise_append] at hp
    have := hp.2.2 x hx c (by simp)
    simp only [headerSize] at this
    omega
  rw [headerSize] at hroom hclear ⊢
  rw [PGSIZE] at hlimit hc
  set n := c + 24 + size with hn
  set pf := s.memory.read c .previousFreeSegment
  have hsep' : Separated (insert n {x | x ∈ l ++ [c]}) := by
    apply (hsep.mono fun x hx => .inr hx).insert (by omega)
    intro x hx
    right
    left
    rcases List.mem_append.mp hx with hx | hx
    · have := hbefore x hx
      omega
    · rw [List.mem_singleton.mp hx]
      omega
  obtain ⟨A, hA, hsub, hpf⟩ : ∃ A, Separated A ∧ insert n {x | x ∈ l ++ [c]} ⊆ A ∧
      (pf = 0 ∨ pf ∈ A) := by
    rcases hclear with h0 | hclear
    · exact ⟨_, hsep', subset_rfl, .inl h0⟩
    · refine ⟨_, hsep'.insert hclear.1 ?_, Set.subset_insert pf _, .inr (Set.mem_insert _ _)⟩
      rintro x (rfl | hx)
      · exact hclear.2 _ (.inr rfl)
      · exact hclear.2 x (.inl hx)
  have hmem : ∀ x ∈ l ++ [c], x ∈ A := fun x hx => hsub (Set.mem_insert_of_mem _ hx)
  have hps : s.memory.read c .previousSegment = 0 ∨ s.memory.read c .previousSegment ∈ A := by
    have hp := h.previous
    rw [mirrors_append, mirrors_cons] at hp
    cases hl : l.getLast? with
    | none =>
        rw [hl] at hp
        exact .inl hp.2.1
    | some x =>
        rw [hl] at hp
        exact .inr (hp.2.1 ▸ hmem x (by simp [List.mem_of_getLast? hl]))
  have hnA : n ∈ A := hsub (Set.mem_insert n _)
  have hcA : c ∈ A := hmem c (by simp)
  have hcn : c ≠ n := by omega
  have hnew : n = u32 (c + headerSize + size) := by
    rw [headerSize, u32_of_lt (by omega)]
  have hread := fun x (hx : x ∈ A) => mallocSplit_read_chain hA hcA hnA hnew hcn hpf hps hx
  generalize (Heap.mallocSplit size c s).1.memory = m' at hread ⊢
  have hln : ∀ x ∈ l, x ≠ c ∧ x ≠ n := by
    intro x hx
    have := hbefore x hx
    omega
  have hsame : SameChain s.memory m' l := by
    intro x hx f hf hf'
    cases f <;> simp [hread x (hmem x (by simp [hx])), hln x hx] at hf hf' ⊢
  have hlenc : m'.read c .memoryLength = size := by
    simp [hread c hcA, hcn]
  have hnextc : m'.read c .nextSegment = n := by
    simp [hread c hcA, hcn]
  have hlenn : n + (24 + m'.read n .memoryLength) = c + (24 + s.memory.read c .memoryLength) := by
    have hsub : u32 (s.memory.read c .memoryLength + 4294967296 - u32 (headerSize + size)) =
        s.memory.read c .memoryLength - (24 + size) := by
      simp only [u32, headerSize]
      omega
    rw [(hread n hnA).1, if_pos rfl, hsub]
    omega
  have hnextn : m'.read n .nextSegment = s.memory.read c .nextSegment := by
    simp [hread n hnA]
  have hprevn : m'.read n .previousSegment = c := by
    simp [hread n hnA]
  have hprevc : m'.read c .previousSegment = s.memory.read c .previousSegment := by
    simp [hread c hcA, hcn]
  refine ⟨⟨?_, ?_, ?_, ?_⟩, ?_, ?_⟩
  · obtain ⟨h₁, h₂⟩ := follows_append_cons.mp h.next
    rw [List.append_assoc, List.singleton_append, follows_append_cons]
    refine ⟨h₁.congr fun x hx => hsame x hx _ (by decide) (by decide), hnextc, ?_⟩
    exact hnextn.trans h₂
  · have htiled := h.tiled
    rw [Tiles, follows_append_cons] at htiled
    rw [Tiles, List.append_assoc, List.singleton_append, follows_append_cons]
    refine ⟨htiled.1.congr fun x hx => ?_, ?_, ?_⟩
    · simp only [hsame x hx .memoryLength (by decide) (by decide)]
    · simp only [hlenc, headerSize]
      omega
    · have hend : c + (24 + s.memory.read c .memoryLength) = base + PGSIZE := htiled.2
      exact hlenn.trans hend
  · have hp := h.previous
    rw [mirrors_append, mirrors_cons] at hp
    rw [List.append_assoc, List.singleton_append, mirrors_append, mirrors_cons, mirrors_cons]
    exact ⟨hp.1.congr fun x hx => hsame x hx _ (by decide) (by decide),
      hprevc.trans hp.2.1, hprevn, trivial⟩
  · exact ⟨_, _, rfl, by simp [hread n hnA]⟩
  · exact fun x hx => hsame x hx _ (by decide) (by decide)
  · simp [hread c hcA, hcn]

end Split

section Free

variable {base a b h : Nat} {m : Memory} {l₁ l₂ hs : List Nat}

/-- The headers of the chain are clear of it. -/
theorem TiledPage.clear_of_mem (hpage : TiledPage base m hs)
    (hnull : base = 0 ∨ headerSize ≤ base) (hlimit : base + PGSIZE ≤ 4294967296) {t : Nat}
    (ht : t ∈ hs) : Clear (· ∈ hs) t := by
  have hsep := hpage.separated hnull hlimit
  refine ⟨hsep.fits t (.inr ht), fun x hx => ?_⟩
  by_cases hxt : x = t
  · exact .inl hxt
  · exact .inr (hsep.apart x (.inr hx) t (.inr ht) hxt)

/-- Reading the chain after a write through a link that is clear of it. -/
theorem TiledPage.read_write (hpage : TiledPage base m hs)
    (hnull : base = 0 ∨ headerSize ≤ base) (hlimit : base + PGSIZE ≤ 4294967296) {x t : Nat}
    (hx : x ∈ hs) (ht : Clear (· ∈ hs) t) (m' : Memory) (f g : Field) (v : Nat) :
    (m'.write t g v).read x f = if x = t ∧ f = g then v else m'.read x f :=
  m'.read_write ((hpage.separated hnull hlimit).fits x (.inr hx)) ht.1 (ht.2 x hx) f g v

/-- Two neighbouring free segments become one. -/
theorem TiledPage.absorb (hpage : TiledPage base m (l₁ ++ a :: b :: l₂))
    (hnull : base = 0 ∨ headerSize ≤ base) (hlimit : base + PGSIZE ≤ 4294967296)
    (ha : m.read a .free ≠ 0) (hlast : base = 0 → m.read b .nextSegment ≠ 0)
    (hclear : Clear (· ∈ l₁ ++ a :: b :: l₂) (m.read b .nextFreeSegment)) :
    TiledPage base (Heap.absorb a b m) (l₁ ++ a :: l₂) ∧
      (∀ x ∈ l₁ ++ a :: b :: l₂, (Heap.absorb a b m).read x .free = m.read x .free) ∧
      (Heap.absorb a b m).read a .nextFreeSegment = m.read b .nextFreeSegment := by
  have hsep := hpage.separated hnull hlimit
  have htiled := hpage.tiled
  rw [Tiles, follows_append_cons, follows_cons] at htiled
  have hadj : a + headerSize + m.read a .memoryLength = b := by
    have hend : a + (headerSize + m.read a .memoryLength) = b := htiled.2.1
    omega
  have hnext := hpage.next
  rw [follows_append_cons, follows_cons] at hnext
  have hab : a ≠ b := by
    rw [headerSize] at hadj
    omega
  have hns : m.read b .nextSegment ∈ {x | x = 0 ∨ x ∈ l₁ ++ a :: b :: l₂} := by
    rcases hnext.2.2.start_mem with h0 | hmem
    · exact .inl h0
    · exact .inr (by simp [hmem])
  have hread := fun x (hx : x ∈ l₁ ++ a :: b :: l₂) =>
    absorb_read_chain hsep (.inr (by simp : a ∈ l₁ ++ a :: b :: l₂))
      (.inr (by simp : b ∈ l₁ ++ a :: b :: l₂)) hab hns hclear.1 (.inr hx) (hclear.2 x hx)
  have hsorted := hpage.sorted
  have hone : ∀ x ∈ l₁, x ≠ a ∧ x < b := by
    intro x hx
    have hp := List.pairwise_append.mp hsorted
    have h₁ := hp.2.2 x hx a (by simp)
    have h₂ := hp.2.2 x hx b (by simp)
    omega
  have htwo : ∀ x ∈ l₂, x ≠ a ∧ b < x := by
    intro x hx
    have hp := (List.pairwise_append.mp hsorted).2.1
    rw [List.pairwise_cons, List.pairwise_cons] at hp
    have h₁ := hp.1 x (by simp [hx])
    have h₂ := hp.2.1 x hx
    omega
  have ha' := hread a (by simp)
  refine ⟨⟨?_, ?_, ?_, ?_⟩, ?_, ?_⟩
  · rw [follows_append_cons]
    refine ⟨hnext.1.congr fun x hx => ?_, ?_⟩
    · simp [hread x (by simp [hx]), hone x hx]
    · rw [ha'.2.1, if_pos rfl]
      apply hnext.2.2.congr
      intro x hx
      simp [hread x (by simp [hx]), htwo x hx]
  · rw [Tiles, follows_append_cons]
    refine ⟨htiled.1.congr fun x hx => ?_, ?_⟩
    · simp [hread x (by simp [hx]), hone x hx]
    · have hlen : u32 (m.read a .memoryLength + (m.read b .memoryLength + headerSize)) =
          m.read a .memoryLength + (m.read b .memoryLength + headerSize) := by
        have := hpage.bounds (x := b) (by simp)
        rw [headerSize] at *
        exact u32_of_lt (by omega)
      have hend : a + (headerSize + (Heap.absorb a b m).read a .memoryLength) =
          b + (headerSize + m.read b .memoryLength) := by
        rw [ha'.1, if_pos rfl, hlen]
        omega
      rw [hend]
      apply htiled.2.2.congr
      intro x hx
      simp [hread x (by simp [hx]), htwo x hx]
  · have hprevious := hpage.previous
    rw [mirrors_append, mirrors_cons, mirrors_cons] at hprevious
    have hne : ∀ x ∈ l₁ ++ [a], x ≠ m.read b .nextSegment := by
      intro x hx heq
      have hxb : x < b := by
        rcases List.mem_append.mp hx with hx | hx
        · exact (hone x hx).2
        · rw [List.mem_singleton.mp hx]
          rw [headerSize] at hadj
          omega
      rcases hnext.2.2.start_mem with h0 | hmem
      · have hx0 : x = 0 := heq.trans h0
        have hxbase := (hpage.bounds (x := x) (by
          rw [List.append_cons]
          exact List.mem_append_left _ hx)).1
        exact hlast (by omega) h0
      · have hlt : b < m.read b .nextSegment := (htwo _ hmem).2
        omega
    rw [mirrors_append, mirrors_cons]
    refine ⟨hprevious.1.congr fun x hx => ?_, ?_, ?_⟩
    · rw [(hread x (by simp [hx])).2.2.1, if_neg (hne x (by simp [hx]))]
    · rw [ha'.2.2.1, if_neg (hne a (by simp))]
      exact hprevious.2.1
    · cases l₂ with
      | nil => trivial
      | cons d l₃ =>
          have hd : m.read b .nextSegment = d := hnext.2.2.1
          rw [mirrors_cons] at hprevious ⊢
          refine ⟨?_, hprevious.2.2.2.2.congr fun x hx => ?_⟩
          · rw [(hread d (by simp)).2.2.1, if_pos hd.symm]
          · have hdx : x ≠ d := by
              have hp := (List.pairwise_append.mp hsorted).2.1
              rw [List.pairwise_cons, List.pairwise_cons, List.pairwise_cons] at hp
              exact (hp.2.2.1 x hx).ne'
            rw [(hread x (by simp [hx])).2.2.1, if_neg (by rwa [hd])]
  · obtain ⟨l, c, hl, hc⟩ := hpage.last
    rcases List.eq_nil_or_concat l₂ with rfl | ⟨l₃, k, rfl⟩
    · exact ⟨l₁, a, rfl, by rwa [ha'.2.2.2.2]⟩
    · refine ⟨l₁ ++ a :: l₃, k, by simp, ?_⟩
      have hlk : l₁ ++ a :: b :: l₃ ++ [k] = l ++ [c] := by simpa using hl
      obtain ⟨-, hkc⟩ := List.append_inj' hlk rfl
      simp only [List.cons.injEq, and_true] at hkc
      rw [(hread k (by simp)).2.2.2.2, hkc]
      exact hc
  · intro x hx
    simp [hread x hx]
  · simp [ha']

/-- `relinkNextFree` changes at most one back link of the free list. -/
theorem TiledPage.relinkNextFree (hpage : TiledPage base m hs)
    (hnull : base = 0 ∨ headerSize ≤ base) (hlimit : base + PGSIZE ≤ 4294967296)
    {m' : Memory} (hclear : Clear (· ∈ hs) (m'.read h .nextFreeSegment)) {x : Nat}
    (hx : x ∈ hs) (f : Field) :
    (Heap.relinkNextFree h m').read x f = m'.read x f ∨
      f = .previousFreeSegment ∧ (Heap.relinkNextFree h m').read x f = h := by
  rw [Heap.relinkNextFree]
  split
  · split
    · rw [hpage.read_write hnull hlimit hx hclear]
      split
      · rename_i heq
        exact .inr ⟨heq.2, rfl⟩
      · exact .inl rfl
    · exact .inl rfl
  · exact .inl rfl

/-- `relinkPreviousFree` changes at most one link of the free list. -/
theorem TiledPage.relinkPreviousFree (hpage : TiledPage base m hs)
    (hnull : base = 0 ∨ headerSize ≤ base) (hlimit : base + PGSIZE ≤ 4294967296)
    {m' : Memory} (hclear : Clear (· ∈ hs) (m'.read h .previousFreeSegment)) {x : Nat}
    (hx : x ∈ hs) (f : Field) :
    (Heap.relinkPreviousFree h m').read x f = m'.read x f ∨
      f = .nextFreeSegment ∧ (Heap.relinkPreviousFree h m').read x f = h := by
  rw [Heap.relinkPreviousFree]
  split
  · split
    · rw [hpage.read_write hnull hlimit hx hclear]
      split
      · rename_i heq
        exact .inr ⟨heq.2, rfl⟩
      · exact .inl rfl
    · exact .inl rfl
  · exact .inl rfl

/-- Setting the flag and repairing the free links keeps the chain. -/
theorem TiledPage.relinked (hpage : TiledPage base m hs)
    (hnull : base = 0 ∨ headerSize ≤ base) (hlimit : base + PGSIZE ≤ 4294967296)
    (hh : h ∈ hs) (hnf : Clear (· ∈ hs) (m.read h .nextFreeSegment))
    (hpf : Clear (· ∈ hs) (m.read h .previousFreeSegment)) :
    TiledPage base (relinked h m) hs ∧
      (∀ x ∈ hs, (relinked h m).read x .free = if x = h then 1 else m.read x .free) ∧
      (∀ x ∈ hs, (relinked h m).read x .nextSegment = m.read x .nextSegment) ∧
      ∀ x ∈ hs, Clear (· ∈ hs) (m.read x .nextFreeSegment) →
        Clear (· ∈ hs) ((relinked h m).read x .nextFreeSegment) := by
  have hself := hpage.clear_of_mem hnull hlimit hh
  have hread₀ : ∀ x ∈ hs, ∀ f, (m.write h .free 1).read x f =
      if x = h ∧ f = .free then 1 else m.read x f :=
    fun x hx f => hpage.read_write hnull hlimit hx hself m f .free 1
  have hread₁ : ∀ x ∈ hs, ∀ f, (Heap.relinkNextFree h (m.write h .free 1)).read x f =
      (m.write h .free 1).read x f ∨ f = .previousFreeSegment ∧
      (Heap.relinkNextFree h (m.write h .free 1)).read x f = h := by
    intro x hx f
    apply hpage.relinkNextFree hnull hlimit _ hx
    rw [hread₀ h hh, if_neg (by simp)]
    exact hnf
  have hread₂ : ∀ x ∈ hs, ∀ f, (Heap.relinked h m).read x f =
      (Heap.relinkNextFree h (m.write h .free 1)).read x f ∨ f = .nextFreeSegment ∧
      (Heap.relinked h m).read x f = h := by
    intro x hx f
    apply hpage.relinkPreviousFree hnull hlimit _ hx
    rcases hread₁ h hh .previousFreeSegment with heq | ⟨-, heq⟩
    · rw [heq, hread₀ h hh, if_neg (by simp)]
      exact hpf
    · rw [heq]
      exact hself
  have hread : ∀ x ∈ hs, ∀ f, f ≠ .nextFreeSegment → f ≠ .previousFreeSegment →
      (Heap.relinked h m).read x f = if x = h ∧ f = .free then 1 else m.read x f := by
    intro x hx f hf hf'
    rw [(hread₂ x hx f).resolve_right fun hc => hf hc.1,
      (hread₁ x hx f).resolve_right fun hc => hf' hc.1, hread₀ x hx f]
  refine ⟨⟨?_, ?_, ?_, ?_⟩, ?_, ?_, ?_⟩
  · exact hpage.next.congr fun x hx => by simp [hread x hx]
  · apply Follows.congr hpage.tiled
    intro x hx
    simp [hread x hx]
  · exact hpage.previous.congr fun x hx => by simp [hread x hx]
  · obtain ⟨l, c, rfl, hc⟩ := hpage.last
    refine ⟨l, c, rfl, ?_⟩
    rw [hread c (by simp) _ (by decide) (by decide)]
    split
    · decide
    · exact hc
  · intro x hx
    simp [hread x hx]
  · intro x hx
    simp [hread x hx]
  · intro x hx hclear
    rcases hread₂ x hx .nextFreeSegment with heq | ⟨-, heq⟩
    · rcases hread₁ x hx .nextFreeSegment with heq' | ⟨hf, -⟩
      · rw [heq, heq', hread₀ x hx, if_neg (by simp)]
        exact hclear
      · exact absurd hf (by decide)
    · rw [heq]
      exact hself

/-- `mergeNext` keeps the chain; it may take the segment behind out of it. -/
theorem TiledPage.mergeNext {g : Nat} (hpage : TiledPage base m (l₁ ++ h :: g :: l₂))
    (hnull : base = 0 ∨ headerSize ≤ base) (hlimit : base + PGSIZE ≤ 4294967296)
    (hh : m.read h .free ≠ 0)
    (hlast : base = 0 → h ≠ 0 → m.read g .free ≠ 0 → m.read g .nextSegment ≠ 0)
    (hnf : Clear (· ∈ l₁ ++ h :: g :: l₂) (m.read h .nextFreeSegment))
    (hgf : m.read g .free ≠ 0 → Clear (· ∈ l₁ ++ h :: g :: l₂) (m.read g .nextFreeSegment)) :
    ∃ l, TiledPage base (Heap.mergeNext h m) (l₁ ++ h :: l) ∧
      (∀ x ∈ l₁ ++ h :: l, (Heap.mergeNext h m).read x .free = m.read x .free) ∧
      (∀ x ∈ g :: l₂, m.read x .free = 0 → x ∈ l) ∧ (base = 0 → h ≠ 0 → l ≠ []) ∧
      (∀ x ∈ l, x ∈ g :: l₂) ∧
      Clear (· ∈ l₁ ++ h :: l) ((Heap.mergeNext h m).read h .nextFreeSegment) := by
  have hnext : m.read h .nextSegment = g := by
    have hfollows := hpage.next
    rw [follows_append_cons, follows_cons] at hfollows
    exact hfollows.2.1
  have hprevious : m.read g .previousSegment = h := by
    have hmirrors := hpage.previous
    rw [mirrors_append, mirrors_cons, mirrors_cons] at hmirrors
    exact hmirrors.2.2.1
  have hhg : h < g := by
    have hsorted := (List.pairwise_append.mp hpage.sorted).2.1
    exact (List.pairwise_cons.mp hsorted).1 g (by simp)
  have hread : ∀ x ∈ l₁ ++ h :: g :: l₂, ∀ f,
      (m.write g .previousSegment h).read x f = m.read x f := by
    intro x hx f
    rw [hpage.read_write hnull hlimit hx (hpage.clear_of_mem hnull hlimit (by simp))]
    split
    · rename_i heq
      rw [heq.1, heq.2, hprevious]
    · rfl
  have hpage' : TiledPage base (m.write g .previousSegment h) (l₁ ++ h :: g :: l₂) :=
    hpage.congr fun x hx f _ _ => hread x hx f
  have hmerge : Heap.mergeNext h m = if m.read g .free ≠ 0 then
      combineFreeSegments h g (m.write g .previousSegment h)
      else m.write g .previousSegment h := by
    rw [Heap.mergeNext, hnext, if_pos (by omega)]
    simp only [hread h (by simp), hnext, hread g (by simp)]
  by_cases hcase : m.read g .free ≠ 0 ∧ h ≠ 0
  · obtain ⟨hg, h0⟩ := hcase
    have hgf' := hgf hg
    rw [← hread g (by simp)] at hgf'
    obtain ⟨habsorb, hflags, hnextFree⟩ := hpage'.absorb hnull hlimit
      (by rwa [hread h (by simp)]) (by
        intro hbase
        rw [hread g (by simp)]
        exact hlast hbase h0 hg) hgf'
    rw [hmerge, if_pos hg, combineFreeSegments, if_neg h0, if_neg (by omega), if_pos hhg]
    have hsub : ∀ x ∈ l₁ ++ h :: l₂, x ∈ l₁ ++ h :: g :: l₂ := by
      intro x hx
      rw [List.append_cons] at hx ⊢
      exact mem_append_cons_of_mem hx
    refine ⟨l₂, habsorb, ?_, ?_, ?_, fun x hx => List.mem_cons_of_mem _ hx, ?_⟩
    · intro x hx
      rw [hflags x (hsub x hx), hread x (hsub x hx)]
    · intro x hx hx0
      rcases List.mem_cons.mp hx with rfl | hx
      · exact absurd hx0 hg
      · exact hx
    · rintro hbase - rfl
      have hfollows := hpage.next
      rw [follows_append_cons, follows_cons, follows_nil] at hfollows
      exact hlast hbase h0 hg hfollows.2.2
    · rw [hnextFree]
      exact hgf'.mono hsub
  · have hplain : Heap.mergeNext h m = m.write g .previousSegment h := by
      rw [hmerge]
      split
      · rename_i hg
        rw [combineFreeSegments, if_pos (not_ne_iff.mp fun h0 => hcase ⟨hg, h0⟩)]
      · rfl
    rw [hplain]
    refine ⟨g :: l₂, hpage', fun x hx => hread x hx _, fun x hx _ => hx, by simp,
      fun x hx => hx, ?_⟩
    rw [hread h (by simp)]
    exact hnf

/-- `mergePrevious` keeps the chain; it may merge the segment into the one before. -/
theorem TiledPage.mergePrevious (hpage : TiledPage base m (l₁ ++ h :: l₂))
    (hnull : base = 0 ∨ headerSize ≤ base) (hlimit : base + PGSIZE ≤ 4294967296)
    (hlast : base = 0 → h ≠ 0 → l₂ ≠ [])
    (hclear : Clear (· ∈ l₁ ++ h :: l₂) (m.read h .nextFreeSegment)) :
    ∃ hs, TiledPage base (Heap.mergePrevious h m) hs ∧
      ∀ x ∈ l₁ ++ l₂, m.read x .free = 0 →
        x ∈ hs ∧ (Heap.mergePrevious h m).read x .free = 0 := by
  have hprevious : m.read h .previousSegment = l₁.getLast?.getD 0 := by
    have hmirrors := hpage.previous
    rw [mirrors_append, mirrors_cons] at hmirrors
    exact hmirrors.2.1
  have hstay : ∃ hs, TiledPage base m hs ∧ ∀ x ∈ l₁ ++ l₂, m.read x .free = 0 →
      x ∈ hs ∧ m.read x .free = 0 := by
    exact ⟨_, hpage, fun x hx hx0 => ⟨mem_append_cons_of_mem hx, hx0⟩⟩
  rcases List.eq_nil_or_concat l₁ with rfl | ⟨l₀, p, rfl⟩
  · rw [Heap.mergePrevious, hprevious]
    exact hstay
  · rw [List.concat_eq_append] at *
    rw [List.getLast?_concat, Option.getD_some] at hprevious
    by_cases hp0 : p = 0
    · rw [Heap.mergePrevious, hprevious, if_neg (by simpa using hp0)]
      exact hstay
    · rw [List.append_assoc, List.singleton_append] at hpage hclear
      have hph : p < h := by
        have hsorted := (List.pairwise_append.mp hpage.sorted).2.1
        exact (List.pairwise_cons.mp hsorted).1 h (by simp)
      have hnext := hpage.next
      rw [follows_append_cons, follows_cons] at hnext
      have hread : ∀ x ∈ l₀ ++ p :: h :: l₂, ∀ f,
          (m.write p .nextSegment h).read x f = m.read x f := by
        intro x hx f
        rw [hpage.read_write hnull hlimit hx (hpage.clear_of_mem hnull hlimit (by simp))]
        split
        · rename_i heq
          rw [heq.1, heq.2]
          exact hnext.2.1.symm
        · rfl
      have hpage' : TiledPage base (m.write p .nextSegment h) (l₀ ++ p :: h :: l₂) :=
        hpage.congr fun x hx f _ _ => hread x hx f
      have hmerge : Heap.mergePrevious h m = if m.read p .free ≠ 0 then
          combineFreeSegments h p (m.write p .nextSegment h)
          else m.write p .nextSegment h := by
        rw [Heap.mergePrevious, hprevious, if_pos hp0]
        simp only [hread h (by simp), hprevious, hread p (by simp)]
      have hin : ∀ x ∈ l₀ ++ [p] ++ l₂, x ∈ l₀ ++ p :: h :: l₂ := by
        intro x hx
        rw [List.append_cons]
        exact mem_append_cons_of_mem hx
      by_cases hfree : m.read p .free = 0
      · rw [hmerge, if_neg (by simpa using hfree)]
        refine ⟨_, hpage', fun x hx hx0 => ⟨hin x hx, ?_⟩⟩
        rw [hread x (hin x hx), hx0]
      · obtain ⟨habsorb, hflags, -⟩ := hpage'.absorb hnull hlimit
          (by rwa [hread p (by simp)]) (by
            intro hbase h0
            rw [hread h (by simp)] at h0
            obtain ⟨d, l, rfl⟩ := List.exists_cons_of_ne_nil (hlast hbase (by omega))
            have hd : m.read h .nextSegment = d := hnext.2.2.1
            have hsorted := (List.pairwise_append.mp hpage.sorted).2.1
            have hhd := (List.pairwise_cons.mp (List.pairwise_cons.mp hsorted).2).1 d (by simp)
            omega) (by rwa [hread h (by simp)])
        rw [hmerge, if_pos hfree, combineFreeSegments, if_neg (by omega), if_neg hp0,
          if_neg (by omega)]
        refine ⟨_, habsorb, fun x hx hx0 => ⟨?_, ?_⟩⟩
        · rwa [List.append_cons]
        · rw [hflags x (hin x hx), hread x (hin x hx), hx0]

end Free

section Runs

variable {base index : Nat} {r r' : HeapRun} {hs : List Nat}

/-- What keeps the chain of segments when `malloc` returns: a block is taken from the last
segment, with room for the header of the rest and a back link that leads to no other
header in part; or no page is to be had. -/
def HeapState.MallocKeepsChain (base : Nat) (s : HeapState) (size : Nat)
    (frames : List Frame) : Prop :=
  ∀ c, firstFit s.memory size s.firstFreeSegment = some c →
    if s.memory.read c .memoryLength < size then frames = []
    else s.IsSegment base c ∧ s.memory.read c .nextSegment = 0 ∧
      size + headerSize ≤ s.memory.read c .memoryLength ∧
      (s.memory.read c .previousFreeSegment = 0 ∨
        Clear (fun x => s.IsSegment base x ∨ x = c + headerSize + size)
          (s.memory.read c .previousFreeSegment))

/-- What keeps the chain of segments when `h` is freed: the free links that are written
through lead to no other header in part, and a segment that is merged into it is not the
last one when the heap begins at address 0. -/
def HeapState.FreeKeepsChain (base : Nat) (s : HeapState) (h : Nat) : Prop :=
  let g := s.memory.read h .nextSegment
  Clear (s.IsSegment base) (s.memory.read h .nextFreeSegment) ∧
    Clear (s.IsSegment base) (s.memory.read h .previousFreeSegment) ∧
    (s.memory.read g .free ≠ 0 →
      Clear (s.IsSegment base) (s.memory.read g .nextFreeSegment)) ∧
    (base = 0 → h ≠ 0 → s.memory.read g .free ≠ 0 → s.memory.read g .nextSegment ≠ 0)

/-- What keeps the chain of segments, said of the state before a call. -/
def HeapCall.KeepsChain (base : Nat) (r : HeapRun) : HeapCall → Prop
  | .malloc size frames => r.heap.MallocKeepsChain base (roundSize size) frames
  | .free address => r.heap.FreeKeepsChain base (headerOf address)

/-- The heap is one tiled page, and live blocks have live segments of the chain. -/
structure OnePage (base index : Nat) (r : HeapRun) (hs : List Nat) : Prop where
  null : base = 0 ∨ headerSize ≤ base
  limit : base + PGSIZE ≤ 4294967296
  page : TiledPage base r.heap.memory hs
  index : r.heap.nextFreePageIndex = index
  live : ∀ b ∈ r.live, ∃ h ∈ hs, b.1 = h + headerSize ∧ r.heap.memory.read h .free = 0

theorem TiledPage.isSegment_iff {m : HeapState} (h : TiledPage base m.memory hs) {x : Nat} :
    m.IsSegment base x ↔ x ∈ hs := by
  have hne : hs ≠ [] := by
    obtain ⟨l, c, rfl, -⟩ := h.last
    simp
  exact h.next.visits_iff hne (zero_notMem_tail h.sorted)

/-- Every size is rounded to a multiple of 8 below the end of the address space. -/
theorem roundSize_bound {size : Nat} (h : size < 4294967296) :
    roundSize size ≤ 4294967288 ∧ roundSize size % 8 = 0 := by
  simp only [roundSize, u32]
  split <;> omega

/-- A last segment ends the list of segments. -/
theorem TiledPage.eq_append {m : Memory} {c : Nat} (h : TiledPage base m hs) (hc : c ∈ hs)
    (hnext : m.read c .nextSegment = 0) : ∃ l, hs = l ++ [c] := by
  obtain ⟨l₁, l₂, rfl, -, hrest⟩ := h.next.split_mem hc
  cases l₂ with
  | nil => exact ⟨l₁, rfl⟩
  | cons d l₂ =>
      have hd : m.read c .nextSegment = d := hrest.1
      have hsorted := (List.pairwise_append.mp h.sorted).2.1
      have hlt := (List.pairwise_cons.mp hsorted).1 d (by simp)
      omega

/-- Without frames there are no new pages. -/
theorem mallocExtend_nil {size c : Nat} {s : HeapState} (hpages : 0 < extensionPages size) :
    mallocExtend size c [] s = some (s, NO_ADDR) := by
  rw [mallocExtend, pallocHeap]
  cases hn : extensionPages size with
  | zero => omega
  | succ n => rfl

/-- A call of `malloc` that keeps the chain, on the memory alone. -/
theorem TiledPage.malloc {s s' : HeapState} {size p : Nat} {frames : List Frame}
    (h : TiledPage base s.memory hs) (hnull : base = 0 ∨ headerSize ≤ base)
    (hlimit : base + PGSIZE ≤ 4294967296) (hsize : size < 4294967296)
    (hkeeps : s.MallocKeepsChain base (roundSize size) frames)
    (hmalloc : Heap.malloc size frames s = some (s', p)) :
    s' = s ∧ p = NO_ADDR ∨
      s'.nextFreePageIndex = s.nextFreePageIndex ∧ ∃ hs', TiledPage base s'.memory hs' ∧
        (∀ x ∈ hs, s.memory.read x .free = 0 → x ∈ hs' ∧ s'.memory.read x .free = 0) ∧
        ∃ c ∈ hs', p = c + headerSize ∧ s'.memory.read c .free = 0 := by
  obtain ⟨hle, h8⟩ := roundSize_bound hsize
  rw [Heap.malloc] at hmalloc
  cases hfit : firstFit s.memory (roundSize size) s.firstFreeSegment with
  | none => simp [hfit] at hmalloc
  | some c =>
      have hcond := hkeeps c hfit
      simp only [hfit] at hmalloc
      by_cases hsmall : s.memory.read c .memoryLength < roundSize size
      · rw [if_pos hsmall] at hcond
        rw [if_pos hsmall, hcond,
          mallocExtend_nil (extensionPages_pos h8 (by omega) hle)] at hmalloc
        simp only [Option.some.injEq, Prod.mk.injEq] at hmalloc
        exact .inl ⟨hmalloc.1.symm, hmalloc.2.symm⟩
      · rw [if_neg hsmall] at hcond
        rw [if_neg hsmall, Option.some.injEq] at hmalloc
        obtain ⟨hsegment, hnext, hroom, hclear⟩ := hcond
        obtain ⟨l, rfl⟩ := h.eq_append (h.isSegment_iff.mp hsegment) hnext
        obtain ⟨hpage, hflags, hflag⟩ := h.mallocSplit hnull hlimit hroom (by
          rcases hclear with h0 | hclear
          · exact .inl h0
          · exact .inr (hclear.mono fun x hx => hx.imp_left h.isSegment_iff.mpr))
        have hp : (Heap.mallocSplit (roundSize size) c s).2 = c + headerSize := by
          change u32 (c + headerSize) = _
          have := h.bounds (x := c) (by simp)
          exact u32_of_lt (by rw [headerSize] at *; omega)
        rw [hmalloc] at hpage hflags hflag hp
        refine .inr ⟨?_, _, hpage, ?_, c, by simp, hp, hflag⟩
        · have hindex := mallocSplit_nextFreePageIndex (roundSize size) c s
          rw [hmalloc] at hindex
          exact hindex
        · intro x hx hx0
          refine ⟨List.mem_append_left _ hx, ?_⟩
          rcases List.mem_append.mp hx with hx | hx
          · rw [hflags x hx, hx0]
          · rw [List.mem_singleton.mp hx]
            exact hflag

/-- A call of `free` that keeps the chain, on the memory alone. -/
theorem TiledPage.free {s : HeapState} {h : Nat} (hpage : TiledPage base s.memory hs)
    (hnull : base = 0 ∨ headerSize ≤ base) (hlimit : base + PGSIZE ≤ 4294967296)
    (hh : h ∈ hs) (hlive : s.memory.read h .free = 0)
    (hkeeps : s.FreeKeepsChain base h) :
    ∃ hs', TiledPage base (Heap.mergePrevious h (Heap.mergeNext h (Heap.relinked h s.memory))) hs' ∧
      ∀ x ∈ hs, x ≠ h → s.memory.read x .free = 0 → x ∈ hs' ∧
        (Heap.mergePrevious h (Heap.mergeNext h (Heap.relinked h s.memory))).read x .free = 0 := by
  obtain ⟨hnf, hpf, hgf, hlast⟩ := hkeeps
  have hiff : ∀ x, x ∈ hs → s.IsSegment base x := fun x hx => hpage.isSegment_iff.mpr hx
  obtain ⟨hpage₁, hflags₁, hnext₁, hclear₁⟩ := hpage.relinked hnull hlimit hh (hnf.mono hiff)
    (hpf.mono hiff)
  obtain ⟨l₁, l₂, rfl⟩ := List.append_of_mem hh
  obtain ⟨g, l₃, rfl⟩ : ∃ g l, l₂ = g :: l := by
    cases l₂ with
    | cons g l => exact ⟨g, l, rfl⟩
    | nil =>
        obtain ⟨l, c, hl, hc⟩ := hpage.last
        obtain ⟨-, hhc⟩ := List.append_inj' hl rfl
        simp only [List.cons.injEq, and_true] at hhc
        rw [← hhc] at hc
        exact absurd hlive hc
  have hnext : s.memory.read h .nextSegment = g := by
    have hfollows := hpage.next
    rw [follows_append_cons, follows_cons] at hfollows
    exact hfollows.2.1
  have hsorted := (List.pairwise_append.mp hpage.sorted)
  have hgh : g ≠ h := ((List.pairwise_cons.mp hsorted.2.1).1 g (by simp)).ne'
  have hgflag : (Heap.relinked h s.memory).read g .free = s.memory.read g .free := by
    rw [hflags₁ g (by simp), if_neg hgh]
  rw [hnext] at hgf hlast
  obtain ⟨l, hpage₂, hflags₂, hkept, hne, hsub, hclear₂⟩ := hpage₁.mergeNext hnull hlimit
    (by rw [hflags₁ h (by simp), if_pos rfl]; decide)
    (by rw [hgflag, hnext₁ g (by simp)]; exact hlast)
    (hclear₁ h (by simp) (hnf.mono hiff))
    (by rw [hgflag]; exact fun hg => hclear₁ g (by simp) ((hgf hg).mono hiff))
  obtain ⟨hs', hpage₃, hflags₃⟩ := hpage₂.mergePrevious hnull hlimit hne hclear₂
  refine ⟨hs', hpage₃, fun x hx hxh hx0 => ?_⟩
  have hx₁ : (Heap.relinked h s.memory).read x .free = 0 := by
    rw [hflags₁ x hx, if_neg hxh, hx0]
  have hxl : x ∈ l₁ ++ l := by
    rcases List.mem_append.mp (mem_append_of_ne hx hxh) with hx | hx
    · exact List.mem_append_left _ hx
    · exact List.mem_append_right _ (hkept x hx hx₁)
  apply hflags₃ x hxl
  rw [hflags₂ x (mem_append_cons_of_mem hxl), hx₁]

theorem TiledPage.forgetWrites {s : HeapState} (h : TiledPage base s.memory hs) :
    TiledPage base s.forgetWrites.memory hs :=
  h.congr fun _ _ _ _ _ => rfl

theorem OnePage.step {a : HeapCall} (h : OnePage base index r hs) (hproper : a.Proper r)
    (hkeeps : a.KeepsChain base r) (hcall : r.call a = some r') :
    ∃ hs', OnePage base index r' hs' := by
  cases a with
  | malloc size frames =>
      rw [HeapRun.call] at hcall
      obtain ⟨⟨heap, p⟩, hmalloc, rfl⟩ := Option.map_eq_some_iff.mp hcall
      rcases h.page.forgetWrites.malloc h.null h.limit hproper.1 hkeeps hmalloc with
        ⟨rfl, rfl⟩ | ⟨hindex, hs', hpage, hlive, c, hc, hp, hflag⟩
      · refine ⟨hs, h.null, h.limit, h.page.forgetWrites, h.index, ?_⟩
        exact fun b hb => h.live b (by simpa using hb)
      · refine ⟨hs', h.null, h.limit, hpage, hindex.trans h.index, ?_⟩
        have hold : ∀ b ∈ r.live, ∃ x ∈ hs', b.1 = x + headerSize ∧
            heap.memory.read x .free = 0 := by
          intro b hb
          obtain ⟨x, hx, hbx, hx0⟩ := h.live b hb
          obtain ⟨hx', hx0'⟩ := hlive x hx hx0
          exact ⟨x, hx', hbx, hx0'⟩
        intro b hb
        simp only at hb
        split at hb
        · exact hold b hb
        · rcases List.mem_cons.mp hb with rfl | hb
          · exact ⟨c, hc, hp, hflag⟩
          · exact hold b hb
  | free address =>
      rw [HeapRun.call] at hcall
      split at hcall
      · rename_i hmem
        obtain rfl := Option.some.inj hcall
        obtain ⟨b, hb, rfl⟩ := List.mem_map.mp hmem
        obtain ⟨x, hx, hbx, hx0⟩ := h.live b hb
        have hheader : headerOf b.1 = x := by
          have := h.page.bounds hx
          have := h.limit
          simp only [headerOf, hbx, headerSize, u32]
          omega
        have hkeeps : r.heap.forgetWrites.FreeKeepsChain base x := hheader ▸ hkeeps
        obtain ⟨hs', hpage, hlive⟩ := h.page.forgetWrites.free h.null h.limit hx hx0 hkeeps
        rw [free_eq, hheader]
        generalize Heap.mergePrevious x
          (Heap.mergeNext x (Heap.relinked x r.heap.forgetWrites.memory)) = m' at hpage hlive ⊢
        refine ⟨hs', h.null, h.limit, hpage, h.index, ?_⟩
        intro e he
        obtain ⟨he, hne⟩ := List.mem_filter.mp he
        obtain ⟨y, hy, hey, hy0⟩ := h.live e he
        have hyx : y ≠ x := by
          rintro rfl
          simp [hey, hbx] at hne
        obtain ⟨hy', hy0'⟩ := hlive y hy hyx hy0
        exact ⟨y, hy', hey, hy0'⟩
      · exact absurd hcall (by simp)

theorem OnePage.start {first : Nat} {memory : Memory} (hbase : base % PGSIZE = 0)
    (hindex : base / PGSIZE < index) (hlimit : index ≤ 1048576) :
    OnePage base index ⟨initialiseHeap base PGSIZE ⟨memory, first, index⟩, []⟩ [base] := by
  have hend : base + PGSIZE ≤ 4294967296 := by
    rw [PGSIZE] at *
    omega
  have hfits : base + 24 ≤ 4294967296 := by
    rw [PGSIZE] at hend
    omega
  have hread := fun (m : Memory) f g v => m.read_write hfits hfits (.inl rfl) f g v
  constructor
  · rw [PGSIZE] at hbase
    rw [headerSize]
    omega
  · exact hend
  · constructor
    · simp [initialiseHeap, hread]
    · simp [initialiseHeap, hread, Tiles, PGSIZE, headerSize]
    · simp [initialiseHeap, hread]
    · exact ⟨[], base, rfl, by simp [initialiseHeap, hread]⟩
  · rfl
  · simp

/-- A tiled page is a chain of segments that tiles the heap. -/
theorem OnePage.chainedSegments (h : OnePage base index r hs) :
    ChainedSegments base index r hs := by
  have hmapped : ∀ a, r.Mapped base index a ↔ base ≤ a ∧ a < base + PGSIZE := by
    intro a
    rw [HeapRun.Mapped, h.index]
    omega
  constructor
  · exact h.page.next
  · exact h.page.sorted
  · exact h.page.previous
  · intro x hx
    have hend := (h.page.bounds hx).2
    have hbase := (h.page.bounds hx).1
    rw [PGSIZE] at hend
    omega
  · intro x hx
    rw [hmapped, Nat.add_assoc]
    rcases h.page.tiled.next_mem hx with hmem | hend
    · exact .inl hmem
    · right
      rw [hend]
      omega
  · apply h.page.tiled.pairwise.imp
    intro x y hle
    rw [Nat.add_assoc]
    exact hle
  · intro a
    rw [hmapped, h.page.tiled.cover]
    simp only [Nat.add_assoc]
  · intro b hb
    obtain ⟨x, hx, hbx, -⟩ := h.live b hb
    have hend := (h.page.bounds hx).2
    have hlimit := h.limit
    have hheader : headerOf b.1 = x := by
      simp only [headerOf, hbx, headerSize, u32]
      omega
    rw [hheader]
    exact hx

/-- In a run of calls that keep the chain, the segments are chained and tile the heap. -/
theorem chainedSegments_of_keepsChain
    (run : (heapMachine base index).Reach (fun r a => a.KeepsChain base r) r) :
    ∃ hs, ChainedSegments base index r hs := by
  have hpage : ∃ hs, OnePage base index r hs := by
    apply run.invariant
    · rintro s ⟨⟨hbase, hindex, hlimit⟩, memory, first, rfl⟩
      exact ⟨_, OnePage.start hbase hindex hlimit⟩
    · rintro s a s' ⟨hs, h⟩ hkeeps ⟨hproper, hcall⟩
      exact h.step hproper hkeeps hcall
  obtain ⟨hs, h⟩ := hpage
  exact ⟨hs, h.chainedSegments⟩

/-- Merging a freed segment with the last one writes through the null pointer into the
header at address 0. -/
theorem not_chainedSegments : ∃ r, (heapMachine 0 1).Reachable r ∧
    r.heap.memory.read 0 .previousSegment = 32 ∧ ¬ ∃ hs, ChainedSegments 0 1 r hs := by
  have hback : (((blankHeap 0 1).calls [.malloc 8 [], .malloc 8 [], .free 56]).map
      (·.heap.memory.read 0 .previousSegment)) = some 32 := by decide
  obtain ⟨r, hcalls, hr⟩ := Option.map_eq_some_iff.mp hback
  refine ⟨r, reach_calls (.start (blankHeap_start (by decide))) ?_ ?_ hcalls, hr, ?_⟩
  · simp
  · simp [HeapCall.Proper]
  · rintro ⟨hs, h⟩
    obtain ⟨x, hx, -⟩ := (h.cover 0).mp (.inl ⟨le_rfl, by decide⟩)
    cases hs with
    | nil => simp at hx
    | cons y l =>
        obtain rfl : 0 = y := h.next.1
        have hzero : r.heap.memory.read 0 .previousSegment = 0 := h.previous.1
        omega

/-- Two blocks taken from a page above address 0, the second given back. -/
theorem chainedSegments_of_keepsChain_run : ∃ r : HeapRun, r.live = [(4120, 8)] ∧
    ∃ hs, ChainedSegments 4096 2 r hs := by
  let s₁ := ((blankHeap 4096 2).call (.malloc 8 [])).get (by decide)
  let s₂ := (s₁.call (.malloc 8 [])).get (by decide)
  let s₃ := (s₂.call (.free 4152)).get (by decide)
  have run₁ : (heapMachine 4096 2).Reach (fun r a => a.KeepsChain 4096 r) s₁ := by
    refine .step (a := .malloc 8 []) (.start (blankHeap_start (by decide))) ?_
      ⟨by decide, (Option.some_get _).symm⟩
    intro c hc
    have hfit : firstFit (blankHeap 4096 2).heap.memory (roundSize 8)
        (blankHeap 4096 2).heap.firstFreeSegment = some 4096 := by decide
    obtain rfl := Option.some.inj (hfit.symm.trans hc)
    rw [if_neg (by decide)]
    exact ⟨.refl _, by decide, by decide, .inl (by decide)⟩
  have run₂ : (heapMachine 4096 2).Reach (fun r a => a.KeepsChain 4096 r) s₂ := by
    refine .step (a := .malloc 8 []) run₁ ?_ ⟨by decide, (Option.some_get _).symm⟩
    intro c hc
    have hfit : firstFit s₁.heap.memory (roundSize 8) s₁.heap.firstFreeSegment =
        some 4128 := by decide
    obtain rfl := Option.some.inj (hfit.symm.trans hc)
    rw [if_neg (by decide)]
    have hsegment : ∀ x, s₁.heap.IsSegment 4096 x ↔ x ∈ [4096, 4128] := by
      intro x
      apply Follows.visits_iff
      · decide
      · simp
      · simp
    exact ⟨(hsegment _).mpr (by decide), by decide, by decide, .inl (by decide)⟩
  have run₃ : (heapMachine 4096 2).Reach (fun r a => a.KeepsChain 4096 r) s₃ := by
    refine .step (a := .free 4152) run₂ ?_ ⟨trivial, (Option.some_get _).symm⟩
    have hsegment : ∀ x, s₂.heap.IsSegment 4096 x ↔ x ∈ [4096, 4128, 4160] := by
      intro x
      apply Follows.visits_iff
      · decide
      · simp
      · simp
    have hclear : ∀ t, t + headerSize ≤ 4294967296 →
        (∀ x ∈ [4096, 4128, 4160], x = t ∨ Apart x t) → Clear (s₂.heap.IsSegment 4096) t :=
      fun t hfits hall => ⟨hfits, fun x hx => hall x ((hsegment x).mp hx)⟩
    exact ⟨hclear _ (by decide) (by decide), hclear _ (by decide) (by decide),
      fun _ => hclear _ (by decide) (by decide), fun h => absurd h (by decide)⟩
  exact ⟨s₃, by decide, chainedSegments_of_keepsChain run₃⟩

end Runs

end NickOS3.Heap
