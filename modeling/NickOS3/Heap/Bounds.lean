import NickOS3.Heap.Calls
import NickOS3.Heap.Current

/-!
# The pages of the heap

Where `malloc` writes. A run of `malloc` calls on a heap at address 0 keeps every header,
every payload and every free segment inside the mapped pages, as long as each block leaves
room for the header behind it and the pages asked for hold what is put into them. The free
list may go wrong meanwhile: the segments here are a set, in no order, and nothing is said
of where the links lead except that they lead to headers.
-/

namespace NickOS3.Heap

open Foundation

/-- The end of the pages mapped for the heap. -/
def HeapState.mappedEnd (s : HeapState) : Nat := s.nextFreePageIndex * PGSIZE

/-- The block, the headers written and the segments left free lie in mapped pages. -/
structure MallocInside (size p : Nat) (s : HeapState) : Prop where
  payload : p + size ≤ s.mappedEnd
  headers : ∀ x ∈ s.memory.written, x + headerSize ≤ s.mappedEnd
  free : ∀ x, x ∈ s.memory.written ∨ s.OnFreeList x ∨ s.IsSegment 0 x →
    s.memory.read x .free ≠ 0 → x + headerSize + s.memory.read x .memoryLength ≤ s.mappedEnd

/-- Segments with headers `hs` and of the sizes `size` lie below `top` and do not overlap. -/
structure Spread (size : Nat → Nat) (hs : Set Nat) (top : Nat) : Prop where
  inside : ∀ x ∈ hs, x + 24 + size x ≤ top
  clear : ∀ x ∈ hs, ∀ y ∈ hs, x ≠ y → x + 24 + size x ≤ y ∨ y + 24 + size y ≤ x

/-- The segments with headers `hs` lie in mapped pages and do not overlap, and their links
are among them; `ls` are those whose length is recorded. -/
structure Bounded (s : HeapState) (size : Nat → Nat) (hs ls : Set Nat) : Prop where
  limit : s.mappedEnd ≤ 4294967296
  spread : Spread size hs s.mappedEnd
  zero : 0 ∈ ls
  sub : ls ⊆ hs
  first : s.firstFreeSegment ∈ ls
  nextFree : ∀ x ∈ ls, s.memory.read x .nextFreeSegment ∈ ls
  nextSegment : ∀ x ∈ hs, s.memory.read x .nextSegment ∈ hs
  previousSegment : ∀ x ∈ hs, s.memory.read x .previousSegment ∈ hs
  previousFree : ∀ x ∈ hs, s.memory.read x .previousFreeSegment ∈ hs
  length : ∀ x ∈ ls, s.memory.read x .memoryLength = size x
  free : ∀ x ∈ hs, s.memory.read x .free ≠ 0 → x ∈ ls

section Spread

variable {size : Nat → Nat} {hs : Set Nat} {top n c k : Nat}

theorem Spread.mono (h : Spread size hs top) {top' : Nat} (hle : top ≤ top') :
    Spread size hs top' :=
  ⟨fun x hx => (h.inside x hx).trans hle, h.clear⟩

theorem Spread.separated (h : Spread size hs top) (hlimit : top ≤ 4294967296) :
    Separated hs := by
  constructor
  · intro x hx
    have := h.inside x hx
    omega
  · intro x hx y hy hne
    rcases h.clear x hx y hy hne with hle | hle
    · exact .inl (by omega)
    · exact .inr (by omega)

/-- A segment of `k` bytes behind all others. -/
theorem Spread.join (h : Spread size hs c) (hk : c + 24 + k ≤ top) :
    Spread (Function.update size c k) (insert c hs) top := by
  have hne : ∀ x ∈ hs, Function.update size c k x = size x := by
    intro x hx
    have := h.inside x hx
    exact Function.update_of_ne (by omega) ..
  have hself : Function.update size c k c = k := Function.update_self ..
  constructor
  · rintro x (rfl | hx)
    · omega
    · rw [hne x hx]
      have := h.inside x hx
      omega
  · rintro x (rfl | hx) y (rfl | hy) hxy
    · exact absurd rfl hxy
    · rw [hne y hy]
      exact .inr (h.inside y hy)
    · rw [hne x hx]
      exact .inl (h.inside x hx)
    · rw [hne x hx, hne y hy]
      exact h.clear x hx y hy hxy

/-- The sizes after a block of `n` bytes is taken from the segment at `c`. -/
def splitSize (size : Nat → Nat) (n c : Nat) : Nat → Nat :=
  Function.update (Function.update size c n) (c + 24 + n) (size c - (24 + n))

theorem splitSize_rest (size : Nat → Nat) (n c : Nat) :
    splitSize size n c (c + 24 + n) = size c - (24 + n) := Function.update_self ..

theorem splitSize_take (size : Nat → Nat) (n c : Nat) : splitSize size n c c = n := by
  rw [splitSize, Function.update_of_ne (by omega), Function.update_self]

theorem splitSize_of_ne {x : Nat} (hrest : x ≠ c + 24 + n) (hc : x ≠ c) :
    splitSize size n c x = size x := by
  rw [splitSize, Function.update_of_ne hrest, Function.update_of_ne hc]

/-- What is left behind a block is a segment of its own. -/
theorem Spread.split (h : Spread size hs top) (hc : c ∈ hs) (hroom : n + 24 ≤ size c) :
    Spread (splitSize size n c) (insert (c + 24 + n) hs) top := by
  have hin := h.inside c hc
  have hrest := splitSize_rest size n c
  have htake := splitSize_take size n c
  have hother : ∀ x ∈ hs, x ≠ c → splitSize size n c x = size x ∧
      (x + 24 + size x ≤ c ∨ c + 24 + size c ≤ x) := by
    intro x hx hne
    have hout := h.clear x hx c hc hne
    exact ⟨splitSize_of_ne (by omega) hne, hout⟩
  constructor
  · rintro x (rfl | hx)
    · omega
    · by_cases hxc : x = c
      · subst hxc
        omega
      · have := hother x hx hxc
        have := h.inside x hx
        omega
  · have hpair : ∀ y ∈ hs, c + 24 + n ≠ y →
        c + 24 + n + 24 + splitSize size n c (c + 24 + n) ≤ y ∨
          y + 24 + splitSize size n c y ≤ c + 24 + n := by
      intro y hy _
      by_cases hyc : y = c
      · subst hyc
        omega
      · have := hother y hy hyc
        omega
    rintro x (rfl | hx) y (rfl | hy) hne
    · exact absurd rfl hne
    · exact hpair y hy hne
    · exact (hpair x hx hne.symm).symm
    · by_cases hxc : x = c
      · subst hxc
        have := hother y hy hne.symm
        omega
      · by_cases hyc : y = c
        · subst hyc
          have := hother x hx hne
          omega
        · rw [(hother x hx hxc).1, (hother y hy hyc).1]
          exact h.clear x hx y hy hne

end Spread

section Invariant

variable {s : HeapState} {size : Nat → Nat} {hs ls : Set Nat}

/-- A search along links that lead to headers with a recorded length ends at one. -/
theorem Bounded.firstFit {n c : Nat} (h : Bounded s size hs ls)
    (hfit : firstFit s.memory n s.firstFreeSegment = some c) : c ∈ ls := by
  apply chase_induct (P := (· ∈ ls)) _ h.first hfit
  intro a b ha hgo
  rw [skipSegment] at hgo
  split at hgo
  · obtain rfl := Option.some.inj hgo
    exact h.nextFree a ha
  · exact absurd hgo (by simp)

theorem Bounded.onFreeList {x : Nat} (h : Bounded s size hs ls) (hx : s.OnFreeList x) :
    x ∈ ls := by
  induction hx with
  | refl => exact h.first
  | next _ _ ih => exact h.nextFree _ ih

theorem Bounded.isSegment {x : Nat} (h : Bounded s size hs ls) (hx : s.IsSegment 0 x) :
    x ∈ hs := by
  induction hx with
  | refl => exact h.sub h.zero
  | next _ _ ih => exact h.nextSegment _ ih

/-- Segments in mapped pages put a block, and what is written and left free, there. -/
theorem Bounded.mallocInside {n p : Nat} (h : Bounded s size hs ls)
    (hwritten : s.memory.WritesIn hs) (hp : ∃ x ∈ hs, p = x + headerSize ∧ n ≤ size x) :
    MallocInside n p s := by
  constructor
  · obtain ⟨x, hx, rfl, hn⟩ := hp
    have := h.spread.inside x hx
    rw [headerSize]
    omega
  · intro x hx
    have := h.spread.inside x (hwritten x hx)
    rw [headerSize]
    omega
  · intro x hx hfree
    have hx : x ∈ hs := by
      rcases hx with hx | hx | hx
      · exact hwritten x hx
      · exact h.sub (h.onFreeList hx)
      · exact h.isSegment hx
    rw [h.length x (h.free x hx hfree), headerSize]
    exact h.spread.inside x hx

end Invariant

section Split

variable {s : HeapState} {size : Nat → Nat} {hs ls : Set Nat} {n c : Nat}

/-- Taking a block from a segment with room for the header behind it. -/
theorem Bounded.mallocSplit (h : Bounded s size hs ls) (hc : c ∈ ls) (hroom : n + 24 ≤ size c)
    (hwritten : s.memory.WritesIn hs) :
    Bounded (Heap.mallocSplit n c s).1 (splitSize size n c) (insert (c + 24 + n) hs)
        (insert (c + 24 + n) ls) ∧
      (Heap.mallocSplit n c s).1.memory.WritesIn (insert (c + 24 + n) hs) := by
  have hcs := h.sub hc
  have hin := h.spread.inside c hcs
  have hlimit := h.limit
  have hspread := h.spread.split hcs hroom
  have hfresh : ∀ x ∈ hs, x ≠ c + 24 + n := by
    intro x hx heq
    have hout := h.spread.clear x hx c hcs (by omega)
    omega
  have hA := hspread.separated hlimit
  have hmem : ∀ x ∈ hs, x ∈ insert (c + 24 + n) hs := fun x hx => Set.mem_insert_of_mem _ hx
  have hmem' : ∀ x ∈ ls, x ∈ insert (c + 24 + n) ls := fun x hx => Set.mem_insert_of_mem _ hx
  have hnA : c + 24 + n ∈ insert (c + 24 + n) hs := Set.mem_insert _ _
  have hnL : c + 24 + n ∈ insert (c + 24 + n) ls := Set.mem_insert _ _
  have hnew : c + 24 + n = u32 (c + headerSize + n) := by
    rw [headerSize, u32_of_lt (by omega)]
  have hpf := h.previousFree c hcs
  have hps := h.previousSegment c hcs
  have hread := fun x hx => mallocSplit_read (x := x) hA (hmem c hcs) hnA hnew (by omega)
    (by omega) (hmem _ hpf) (hmem _ hps) (hfresh _ hpf) (hfresh _ hps) hx
  have hwrites := mallocSplit_writesIn hA (hmem c hcs) hnA hnew (by omega) (hmem _ hpf)
    (hmem _ hps) fun x hx => hmem x (hwritten x hx)
  have hindex := mallocSplit_nextFreePageIndex n c s
  have hfirst : (Heap.mallocSplit n c s).1.firstFreeSegment =
      if c = s.firstFreeSegment then c + 24 + n else s.firstFreeSegment := by
    rw [hnew]
    rfl
  generalize (Heap.mallocSplit n c s).1 = s' at hread hwrites hindex hfirst ⊢
  have hend : s'.mappedEnd = s.mappedEnd := by
    rw [HeapState.mappedEnd, hindex, HeapState.mappedEnd]
  refine ⟨⟨?_, ?_, hmem' 0 h.zero, Set.insert_subset_insert h.sub, ?_, ?_, ?_, ?_, ?_,
    ?_, ?_⟩, hwrites⟩
  · rw [hend]
    exact hlimit
  · rw [hend]
    exact hspread
  · rw [hfirst]
    split
    · exact hnL
    · exact hmem' _ h.first
  · rintro x hx
    have hxA : x ∈ insert (c + 24 + n) hs := Set.insert_subset_insert h.sub hx
    rw [hread x hxA]
    dsimp only
    split
    · exact hmem' _ (h.nextFree c hc)
    · rename_i hxn
      split
      · exact hnL
      · exact hmem' _ (h.nextFree x (hx.resolve_left hxn))
  · intro x hx
    rw [hread x hx]
    dsimp only
    split
    · exact hmem _ (h.nextSegment c hcs)
    · rename_i hxn
      split
      · exact hnA
      · exact hmem _ (h.nextSegment x (hx.resolve_left hxn))
  · intro x hx
    rw [hread x hx]
    dsimp only
    split
    · exact hmem _ hcs
    · rename_i hxn
      exact hmem _ (h.previousSegment x (hx.resolve_left hxn))
  · intro x hx
    rw [hread x hx]
    dsimp only
    split
    · exact hmem _ hpf
    · rename_i hxn
      exact hmem _ (h.previousFree x (hx.resolve_left hxn))
  · rintro x hx
    rw [hread x (Set.insert_subset_insert h.sub hx)]
    dsimp only
    split
    · rename_i hxn
      have hlen := h.length c hc
      rw [hxn, splitSize_rest, hlen, headerSize, u32, u32]
      omega
    · rename_i hxn
      split
      · rename_i hxc
        rw [hxc, splitSize_take]
      · rename_i hxc
        rw [splitSize_of_ne hxn hxc]
        exact h.length x (hx.resolve_left hxn)
  · intro x hx hflag
    rw [hread x hx] at hflag
    dsimp only at hflag
    split at hflag
    · rename_i hxn
      rw [hxn]
      exact hnL
    · rename_i hxn
      split at hflag
      · exact absurd rfl hflag
      · exact hmem' _ (h.free x (hx.resolve_left hxn) hflag)

end Split

section Extend

variable {s s' : HeapState} {size : Nat → Nat} {hs ls : Set Nat} {n c b pages : Nat}
  {m' : Memory}

/-- New pages leave the segments of the old ones alone. -/
theorem Bounded.raise (h : Bounded s size hs ls) (hmaps : MapsMore s s' pages)
    (hlimit : s'.mappedEnd ≤ 4294967296) : Bounded s' size hs ls := by
  have hread : ∀ x ∈ hs, ∀ f, s'.memory.read x f = s.memory.read x f := by
    intro x hx f
    apply hmaps.read _ h.limit
    have := h.spread.inside x hx
    rw [HeapState.mappedEnd] at this
    omega
  have hend : s.mappedEnd ≤ s'.mappedEnd := by
    rw [HeapState.mappedEnd, HeapState.mappedEnd, hmaps.index]
    exact Nat.mul_le_mul_right _ (Nat.le_add_right _ _)
  constructor
  · exact hlimit
  · exact h.spread.mono hend
  · exact h.zero
  · exact h.sub
  · rw [hmaps.first]
    exact h.first
  · exact fun x hx => hread x (h.sub hx) _ ▸ h.nextFree x hx
  · exact fun x hx => hread x hx _ ▸ h.nextSegment x hx
  · exact fun x hx => hread x hx _ ▸ h.previousSegment x hx
  · exact fun x hx => hread x hx _ ▸ h.previousFree x hx
  · exact fun x hx => (hread x (h.sub hx) _).trans (h.length x hx)
  · exact fun x hx hflag => h.free x hx (hread x hx .free ▸ hflag)

/-- The segments after `linkNewPages` makes one behind the block. -/
theorem Bounded.linkNewPages (h : Bounded s size hs ls) (hc : c ∈ ls) (hb : Spread size hs b)
    (hrem : headerSize < n % PGSIZE) (hfit : b + 24 + n + n % PGSIZE ≤ s.mappedEnd)
    (hlink : Heap.linkNewPages n c b s.memory = some m') (hwritten : s.memory.WritesIn hs) :
    Bounded { s with memory := m' }
        (Function.update (Function.update size b n) (b + 24 + n) (n % PGSIZE - 24))
        (insert (b + 24 + n) (insert b hs)) (insert (b + 24 + n) ls) ∧
      m'.WritesIn (insert (b + 24 + n) (insert b hs)) := by
  have hcs := h.sub hc
  have hlimit := h.limit
  rw [headerSize] at hrem
  have hspread : Spread (Function.update (Function.update size b n) (b + 24 + n) (n % PGSIZE - 24))
      (insert (b + 24 + n) (insert b hs)) s.mappedEnd :=
    (hb.join le_rfl).join (by omega)
  have hA := hspread.separated hlimit
  have hmem : ∀ x ∈ hs, x ∈ insert (b + 24 + n) (insert b hs) :=
    fun x hx => Set.mem_insert_of_mem _ (Set.mem_insert_of_mem _ hx)
  have hmem' : ∀ x ∈ ls, x ∈ insert (b + 24 + n) ls := fun x hx => Set.mem_insert_of_mem _ hx
  have hbA : b ∈ insert (b + 24 + n) (insert b hs) :=
    Set.mem_insert_of_mem _ (Set.mem_insert _ _)
  have hnA : b + 24 + n ∈ insert (b + 24 + n) (insert b hs) := Set.mem_insert _ _
  have hlt : ∀ x ∈ hs, x < b := by
    intro x hx
    have := hb.inside x hx
    omega
  have hnew : b + 24 + n = u32 (b + headerSize + n) := by
    rw [headerSize, u32_of_lt (by omega)]
  have hcb := hlt c hcs
  obtain ⟨m₁, tmp, htmp, hm₁, hread⟩ := linkNewPages_read hA (hmem c hcs) hbA hnA hnew
    (by omega) (by omega) (by omega) hrem hlink
  have hwrites := linkNewPages_writesIn (hmem c hcs) hbA (fun _ => hnew ▸ hnA)
    (fun x hx => hmem x (hwritten x hx)) hlink
  have htmp : tmp ∈ hs := by
    apply chase_induct (P := (· ∈ hs)) _ hcs htmp
    intro a e ha hgo
    have halt := hlt a ha
    rw [followSegment, hm₁ a (hmem a ha) (by omega)] at hgo
    split at hgo
    · obtain rfl := Option.some.inj hgo
      exact h.nextSegment a ha
    · exact absurd hgo (by simp)
  have hold : ∀ x ∈ insert (b + 24 + n) (insert b hs), x ≠ b + 24 + n → x ≠ b → x ∈ hs :=
    fun x hx hxn hxb => (hx.resolve_left hxn).resolve_left hxb
  have hrecorded : ∀ x ∈ insert (b + 24 + n) ls, x ≠ b + 24 + n → x ∈ ls ∧ x ≠ b := by
    intro x hx hxn
    have hx := hx.resolve_left hxn
    exact ⟨hx, (hlt x (h.sub hx)).ne⟩
  have hsub : insert (b + 24 + n) ls ⊆ insert (b + 24 + n) (insert b hs) :=
    Set.insert_subset_insert fun x hx => Set.mem_insert_of_mem _ (h.sub hx)
  refine ⟨⟨hlimit, hspread, hmem' 0 h.zero, hsub, hmem' _ h.first, ?_, ?_, ?_, ?_, ?_, ?_⟩,
    hwrites⟩
  · intro x hx
    rw [hread x (hsub hx)]
    dsimp only
    split
    · exact hmem' 0 h.zero
    · rename_i hxn
      split
      · exact Set.mem_insert _ _
      · exact hmem' _ (h.nextFree x (hrecorded x hx hxn).1)
  · intro x hx
    rw [hread x hx]
    dsimp only
    split
    · exact hmem 0 (h.sub h.zero)
    · rename_i hxn
      split
      · exact hbA
      · split
        · exact hnA
        · rename_i hxb
          exact hmem _ (h.nextSegment x (hold x hx hxn hxb))
  · intro x hx
    rw [hread x hx]
    dsimp only
    split
    · exact hbA
    · rename_i hxn
      split
      · exact hmem tmp htmp
      · rename_i hxb
        exact hmem _ (h.previousSegment x (hold x hx hxn hxb))
  · intro x hx
    rw [hread x hx]
    dsimp only
    split
    · split
      · exact hmem c hcs
      · exact hmem _ (h.previousFree c hcs)
    · rename_i hxn
      split
      · exact hmem c hcs
      · rename_i hxb
        exact hmem _ (h.previousFree x (hold x hx hxn hxb))
  · intro x hx
    rw [hread x (hsub hx)]
    dsimp only
    split
    · rename_i hxn
      rw [hxn, Function.update_self, headerSize]
    · rename_i hxn
      obtain ⟨hx, hxb⟩ := hrecorded x hx hxn
      rw [Function.update_of_ne hxn, Function.update_of_ne hxb]
      exact h.length x hx
  · intro x hx hflag
    rw [hread x hx] at hflag
    dsimp only at hflag
    split at hflag
    · rename_i hxn
      exact .inl hxn
    · rename_i hxn
      split at hflag
      · exact absurd rfl hflag
      · rename_i hxb
        exact hmem' x (h.free x (hold x hx hxn hxb) hflag)

/-- The segments after `linkNewPages` makes none behind the block. -/
theorem Bounded.linkNewPages_of_le (h : Bounded s size hs ls) (hc : c ∈ ls)
    (hb : Spread size hs b) (hrem : n % PGSIZE ≤ headerSize) (hfit : b + 24 + n ≤ s.mappedEnd)
    (hlink : Heap.linkNewPages n c b s.memory = some m') (hwritten : s.memory.WritesIn hs) :
    Bounded { s with memory := m' } (Function.update size b n) (insert b hs) ls ∧
      m'.WritesIn (insert b hs) := by
  have hcs := h.sub hc
  have hlimit := h.limit
  have hspread : Spread (Function.update size b n) (insert b hs) s.mappedEnd := hb.join hfit
  have hA := hspread.separated hlimit
  have hmem : ∀ x ∈ hs, x ∈ insert b hs := fun x hx => Set.mem_insert_of_mem _ hx
  have hbA : b ∈ insert b hs := Set.mem_insert _ _
  have hlt : ∀ x ∈ hs, x < b := by
    intro x hx
    have := hb.inside x hx
    omega
  obtain ⟨m₁, hlink₁, hread⟩ := linkNewPages_read_of_le (m := s.memory) hA (hmem c hcs) hbA
    (hlt c hcs).ne hrem
  obtain rfl : m₁ = m' := Option.some.inj (hlink₁.symm.trans hlink)
  have hwrites := linkNewPages_writesIn (hmem c hcs) hbA (fun hlt => absurd hrem (by omega))
    (fun x hx => hmem x (hwritten x hx)) hlink
  have hsub : ls ⊆ insert b hs := fun x hx => hmem x (h.sub hx)
  have hold : ∀ x ∈ insert b hs, ¬ (x = c ∨ x = b) → x ∈ hs :=
    fun x hx hxb => hx.resolve_left fun heq => hxb (.inr heq)
  refine ⟨⟨hlimit, hspread, h.zero, hsub, h.first, ?_, ?_, ?_, ?_, ?_, ?_⟩, hwrites⟩
  · intro x hx
    rw [hread x (hsub hx)]
    dsimp only
    split
    · exact h.zero
    · exact h.nextFree x hx
  · intro x hx
    rw [hread x hx]
    dsimp only
    split
    · exact hmem 0 (h.sub h.zero)
    · rename_i hxb
      exact hmem _ (h.nextSegment x (hold x hx hxb))
  · intro x hx
    rw [hread x hx]
    dsimp only
    split
    · exact hmem c hcs
    · rename_i hxb
      exact hmem _ (h.previousSegment x (hx.resolve_left hxb))
  · intro x hx
    rw [hread x hx]
    dsimp only
    split
    · split
      · exact hmem c hcs
      · exact hmem _ (h.previousFree c hcs)
    · rename_i hxb
      exact hmem _ (h.previousFree x (hx.resolve_left hxb))
  · intro x hx
    rw [hread x (hsub hx), Function.update_of_ne (hlt x (h.sub hx)).ne]
    exact h.length x hx
  · intro x hx hflag
    rw [hread x hx] at hflag
    dsimp only at hflag
    split at hflag
    · exact absurd rfl hflag
    · rename_i hxb
      exact h.free x (hx.resolve_left hxb) hflag

/-- New pages for a block that fits nowhere. -/
theorem Bounded.mallocExtend {frames : List Frame} {p : Nat} (h : Bounded s size hs ls)
    (hc : c ∈ ls) (hindex : s.nextFreePageIndex + frames.length ≤ 1048576)
    (hpages : 0 < extensionPages n) (hfits : frames.length < extensionPages n ∨ FitsPages n)
    (hwritten : s.memory.WritesIn hs)
    (hextend : Heap.mallocExtend n c frames s = some (s', p)) :
    ∃ size' hs' ls', Bounded s' size' hs' ls' ∧ s'.memory.WritesIn hs' ∧
      (p = NO_ADDR ∨ ∃ x ∈ hs', p = x + headerSize ∧ size' x = n) := by
  obtain ⟨pages, hmaps, hle, hres⟩ := pallocHeap_spec hpages hindex
  rw [Heap.mallocExtend] at hextend
  have hlimit : (pallocHeap (extensionPages n) frames s).1.mappedEnd ≤ 4294967296 := by
    rw [HeapState.mappedEnd, hmaps.index, PGSIZE]
    omega
  have hraise := h.raise hmaps hlimit
  generalize pallocHeap (extensionPages n) frames s = res at *
  obtain ⟨s₁, b⟩ := res
  simp only at hres hextend hraise hmaps hlimit
  have hwritten₁ : s₁.memory.WritesIn hs := by
    rw [Memory.WritesIn, hmaps.written]
    exact hwritten
  rcases hres with ⟨haddr, hn⟩ | ⟨haddr, hlt, -⟩
  · have hfits : FitsPages n := hfits.resolve_left (by omega)
    rw [if_neg (by rw [haddr, NO_ADDR, PGSIZE]; omega)] at hextend
    obtain ⟨m', hlink, hs'⟩ := Option.map_eq_some_iff.mp hextend
    obtain ⟨rfl, rfl⟩ := Prod.mk.injEq .. ▸ hs'
    have hbelow : Spread size hs b := haddr ▸ h.spread
    have hend : s₁.mappedEnd = b + extensionPages n * PGSIZE := by
      rw [HeapState.mappedEnd, hmaps.index, haddr, hn, Nat.add_mul]
    have hb : b + headerSize < 4294967296 := by
      rw [haddr, PGSIZE, headerSize]
      omega
    rw [u32_of_lt hb]
    rw [FitsPages] at hfits
    by_cases hrem : headerSize < n % PGSIZE
    · rw [if_pos hrem, headerSize] at hfits
      obtain ⟨hbounded, hwrites⟩ := hraise.linkNewPages hc hbelow hrem (by omega) hlink hwritten₁
      refine ⟨_, _, _, hbounded, hwrites, .inr ⟨b, by simp, rfl, ?_⟩⟩
      rw [Function.update_of_ne (by omega), Function.update_self]
    · rw [if_neg hrem, headerSize] at hfits
      obtain ⟨hbounded, hwrites⟩ := hraise.linkNewPages_of_le hc hbelow (by omega) (by omega)
        hlink hwritten₁
      exact ⟨_, _, _, hbounded, hwrites, .inr ⟨b, by simp, rfl, Function.update_self ..⟩⟩
  · rw [if_pos haddr, Option.some.injEq, Prod.mk.injEq] at hextend
    obtain ⟨rfl, rfl⟩ := hextend
    exact ⟨size, hs, ls, hraise, hwritten₁, .inl rfl⟩

end Extend

section Runs

variable {s s' : HeapState} {size : Nat → Nat} {hs ls : Set Nat} {r : HeapRun}

/-- A call of `malloc`. -/
def HeapCall.IsMalloc : HeapCall → Prop
  | .malloc _ _ => True
  | .free _ => False

/-- What keeps a call of `malloc` inside the mapped pages, said of the state before it: the
size does not wrap around, the segment where the search ends has room for one more header,
and if it is too small new pages can be put behind it. -/
def HeapCall.StaysInside (r : HeapRun) : HeapCall → Prop
  | .malloc size frames => size ≤ 4294967288 ∧
      ∀ c, firstFit r.heap.memory (roundSize size) r.heap.firstFreeSegment = some c →
        if r.heap.memory.read c .memoryLength < roundSize size then
          r.heap.Extends (roundSize size) frames
        else roundSize size + headerSize ≤ r.heap.memory.read c .memoryLength
  | .free _ => False

/-- A call of `malloc` that stays inside the mapped pages, on segments that do. -/
theorem Bounded.malloc {n p : Nat} {frames : List Frame} (h : Bounded s size hs ls)
    (hindex : s.nextFreePageIndex + frames.length ≤ 1048576) (hn : n ≤ 4294967288)
    (hroom : ∀ c, Heap.firstFit s.memory (roundSize n) s.firstFreeSegment = some c →
      if s.memory.read c .memoryLength < roundSize n then
        s.Extends (roundSize n) frames
      else roundSize n + headerSize ≤ s.memory.read c .memoryLength)
    (hwritten : s.memory.WritesIn hs) (hmalloc : Heap.malloc n frames s = some (s', p)) :
    ∃ size' hs' ls', Bounded s' size' hs' ls' ∧ s'.memory.WritesIn hs' ∧
      (p = NO_ADDR ∨ ∃ x ∈ hs', p = x + headerSize ∧ size' x = roundSize n) := by
  rw [Heap.malloc] at hmalloc
  cases hfit : Heap.firstFit s.memory (roundSize n) s.firstFreeSegment with
  | none => simp [hfit] at hmalloc
  | some c =>
      have hc := h.firstFit hfit
      have hcond := hroom c hfit
      simp only [hfit] at hmalloc
      by_cases hsmall : s.memory.read c .memoryLength < roundSize n
      · rw [if_pos hsmall] at hmalloc hcond
        obtain ⟨-, -, hle, h8⟩ := roundSize_spec hn
        exact h.mallocExtend hc hindex (extensionPages_pos h8 (by omega) hle) hcond.2
          hwritten hmalloc
      · rw [if_neg hsmall, Option.some.injEq] at hmalloc
        rw [if_neg hsmall, h.length c hc, headerSize] at hcond
        obtain ⟨hbounded, hwrites⟩ := h.mallocSplit hc hcond hwritten
        have hp : (Heap.mallocSplit (roundSize n) c s).2 = c + headerSize := by
          have hin := h.spread.inside c (h.sub hc)
          have hlimit := h.limit
          change u32 (c + headerSize) = _
          exact u32_of_lt (by rw [headerSize]; omega)
        rw [hmalloc] at hbounded hwrites hp
        exact ⟨_, _, _, hbounded, hwrites,
          .inr ⟨c, Set.mem_insert_of_mem _ (h.sub hc), hp, splitSize_take ..⟩⟩

theorem Bounded.forgetWrites (h : Bounded s size hs ls) : Bounded s.forgetWrites size hs ls :=
  ⟨h.limit, h.spread, h.zero, h.sub, h.first, h.nextFree, h.nextSegment, h.previousSegment,
    h.previousFree, h.length, h.free⟩

theorem Bounded.index_le {n : Nat} {frames : List Frame} (h : Bounded r.heap size hs ls)
    (hproper : (HeapCall.malloc n frames).Proper r) :
    r.heap.nextFreePageIndex + frames.length ≤ 1048576 := by
  have hlimit := h.limit
  have hframes := hproper.2
  rw [HeapState.mappedEnd, PGSIZE] at hlimit
  omega

/-- The heap as `initialiseHeap` leaves it at address 0. -/
theorem Bounded.start {first : Nat} {memory : Memory} :
    Bounded (initialiseHeap 0 PGSIZE ⟨memory, first, 1⟩) (fun _ => PGSIZE - headerSize) {0}
      {0} := by
  have hfits : 0 + 24 ≤ 4294967296 := by decide
  have hread := fun (m : Memory) f g v => m.read_write hfits hfits (.inl rfl) f g v
  refine ⟨?_, ⟨?_, ?_⟩, rfl, subset_rfl, rfl, ?_, ?_, ?_, ?_, ?_, ?_⟩
  · change 1 * PGSIZE ≤ 4294967296
    decide
  · rintro x rfl
    change 0 + 24 + (PGSIZE - headerSize) ≤ 1 * PGSIZE
    decide
  · rintro x rfl y rfl hne
    exact absurd rfl hne
  all_goals
    rintro x rfl
    simp [initialiseHeap, hread]

/-- Calls of `malloc` that stay inside the mapped pages leave segments that do. -/
theorem Bounded.of_reach (run : (heapMachine 0 1).Reach (fun r a => a.StaysInside r) r) :
    ∃ size hs ls, Bounded r.heap size hs ls := by
  apply run.invariant
  · rintro s ⟨-, memory, first, rfl⟩
    exact ⟨_, _, _, Bounded.start⟩
  · rintro r a r' ⟨size, hs, ls, h⟩ hstays ⟨hproper, hcall⟩
    cases a with
    | free address => exact hstays.elim
    | malloc n frames =>
        rw [HeapRun.call] at hcall
        obtain ⟨⟨heap, p⟩, hmalloc, rfl⟩ := Option.map_eq_some_iff.mp hcall
        obtain ⟨size', hs', ls', hbounded, -⟩ := h.forgetWrites.malloc (h.index_le hproper)
          hstays.1 hstays.2 (by simp [Memory.WritesIn, HeapState.forgetWrites]) hmalloc
        exact ⟨size', hs', ls', hbounded⟩

end Runs

end NickOS3.Heap
