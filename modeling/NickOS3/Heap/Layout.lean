import NickOS3.Heap.Memory
import Mathlib.Data.List.Pairwise
import Mathlib.Tactic.Tauto

/-!
# Layouts of the heap

What the allocator is for, without memory: the heap pages hold segments that do
not overlap. The chain is the address-ordered list of the segments that the
allocator works on; loose blocks are live blocks that no list leads to. Splitting a
free segment, freeing a live one, merging two neighbours and adding new ones keep
a layout.
-/

namespace NickOS3.Heap

/-- A header address, the payload bytes behind it, and whether they are free. -/
structure Segment where
  header : Nat
  size : Nat
  free : Bool
  deriving DecidableEq

namespace Segment

/-- The first address after the segment. -/
def finish (g : Segment) : Nat := g.header + headerSize + g.size

/-- The two segments do not overlap. -/
def Clear (g k : Segment) : Prop := g.finish ≤ k.header ∨ k.finish ≤ g.header

theorem Clear.symm {g k : Segment} (h : g.Clear k) : k.Clear g := Or.symm h

instance : Std.Symm Segment.Clear := ⟨fun _ _ => Clear.symm⟩

theorem header_add_le_finish (g : Segment) : g.header + 24 ≤ g.finish :=
  Nat.le_add_right _ _

theorem header_lt_finish (g : Segment) : g.header < g.finish :=
  Nat.lt_of_lt_of_le (by omega) g.header_add_le_finish

/-- The block of `size` bytes at the start of the segment. -/
def take (g : Segment) (size : Nat) : Segment := ⟨g.header, size, false⟩

/-- What is left of the segment behind that block. -/
def rest (g : Segment) (size : Nat) : Segment :=
  ⟨g.header + 24 + size, g.size - (24 + size), true⟩

/-- The segment, free. -/
def release (g : Segment) : Segment := { g with free := true }

/-- The free segment that takes over the one behind it. -/
def absorb (g k : Segment) : Segment := ⟨g.header, g.size + (k.size + 24), true⟩

@[simp] theorem take_header (g : Segment) (size : Nat) : (g.take size).header = g.header := rfl
@[simp] theorem take_free (g : Segment) (size : Nat) : (g.take size).free = false := rfl
@[simp] theorem rest_header (g : Segment) (size : Nat) :
    (g.rest size).header = g.header + 24 + size := rfl
@[simp] theorem rest_free (g : Segment) (size : Nat) : (g.rest size).free = true := rfl
@[simp] theorem release_header (g : Segment) : g.release.header = g.header := rfl
@[simp] theorem release_free (g : Segment) : g.release.free = true := rfl
@[simp] theorem release_size (g : Segment) : g.release.size = g.size := rfl
@[simp] theorem release_finish (g : Segment) : g.release.finish = g.finish := rfl
@[simp] theorem absorb_header (g k : Segment) : (g.absorb k).header = g.header := rfl
@[simp] theorem absorb_free (g k : Segment) : (g.absorb k).free = true := rfl

theorem take_finish (g : Segment) (size : Nat) :
    (g.take size).finish = (g.rest size).header := rfl

theorem rest_finish {g : Segment} {size : Nat} (h : size + 24 ≤ g.size) :
    (g.rest size).finish = g.finish := by
  simp only [finish, rest, headerSize]
  omega

theorem absorb_finish {g k : Segment} (h : g.finish = k.header) :
    (g.absorb k).finish = k.finish := by
  simp only [finish, absorb, headerSize] at h ⊢
  omega

end Segment

/-- The headers of the free segments, in order. -/
def frees (chain : List Segment) : List Nat := (chain.filter (·.free)).map (·.header)

@[simp] theorem frees_nil : frees [] = [] := rfl

theorem frees_append (l₁ l₂ : List Segment) : frees (l₁ ++ l₂) = frees l₁ ++ frees l₂ := by
  simp [frees]

theorem frees_cons_of_free {g : Segment} (h : g.free = true) (l : List Segment) :
    frees (g :: l) = g.header :: frees l := by
  simp [frees, h]

theorem frees_cons_of_live {g : Segment} (h : g.free = false) (l : List Segment) :
    frees (g :: l) = frees l := by
  simp [frees, h]

theorem mem_frees {x : Nat} {l : List Segment} :
    x ∈ frees l ↔ ∃ g ∈ l, g.free = true ∧ g.header = x := by
  simp [frees, and_assoc]

/-- A list that ends with a free segment ends its free segments with it. -/
theorem getLast?_frees {l : List Segment} {g : Segment} (hl : l.getLast? = some g)
    (hg : g.free = true) : (frees l).getLast? = some g.header := by
  obtain ⟨l, rfl⟩ := List.getLast?_eq_some_iff.mp hl
  rw [frees_append, frees_cons_of_free hg, frees_nil, List.getLast?_concat]

/-- Segments that do not overlap between `base` and `top`, the chain in address order
and with a free segment at its end. -/
structure Layout (base top : Nat) (chain loose : List Segment) : Prop where
  null : base = 0 ∨ headerSize ≤ base
  first : ∃ g ∈ chain, g.header = base
  limit : top ≤ 4294967296
  inside : ∀ g ∈ chain ++ loose, base ≤ g.header ∧ g.finish ≤ top
  clear : (chain ++ loose).Pairwise Segment.Clear
  sorted : chain.Pairwise fun g k => g.header < k.header
  last : ∃ l g, chain = l ++ [g] ∧ g.free = true
  live : ∀ g ∈ loose, g.free = false

namespace Layout

variable {base top : Nat} {chain loose l₁ l₂ : List Segment} {g k c : Segment}

theorem clear_of_ne (h : Layout base top chain loose) (hg : g ∈ chain ++ loose)
    (hk : k ∈ chain ++ loose) (hne : g ≠ k) : g.Clear k :=
  h.clear.forall hg hk hne

/-- Different segments have different headers. -/
theorem header_injective (h : Layout base top chain loose) (hg : g ∈ chain ++ loose)
    (hk : k ∈ chain ++ loose) (heq : g.header = k.header) : g = k := by
  by_contra hne
  have hg' := g.header_lt_finish
  have hk' := k.header_lt_finish
  rcases h.clear_of_ne hg hk hne with hlt | hlt <;> omega

/-- The other segments of a layout lie elsewhere. -/
theorem clear_of_mem {part : List Segment} (h : Layout base top (l₁ ++ part ++ l₂) loose)
    (hk : k ∈ l₁ ++ l₂ ++ loose) (hg : g ∈ part) : k.Clear g := by
  have hp := h.clear
  simp only [List.pairwise_append, List.mem_append] at hp hk
  rcases hk with (hk | hk) | hk
  · exact hp.1.1.2.2 k hk g hg
  · exact (hp.1.2.2 g (.inr hg) k hk).symm
  · exact (hp.2.2 g (.inl (.inr hg)) k hk).symm

theorem header_ne {part : List Segment} (h : Layout base top (l₁ ++ part ++ l₂) loose)
    (hk : k ∈ l₁ ++ l₂ ++ loose) (hg : g ∈ part) : k.header ≠ g.header := by
  have hk' := k.header_lt_finish
  have hg' := g.header_lt_finish
  rcases h.clear_of_mem hk hg with hlt | hlt <;> omega

/-- The other segments of a layout lie elsewhere than a loose block. -/
theorem header_ne_loose (h : Layout base top chain (g :: loose)) (hk : k ∈ chain ++ loose) :
    k.header ≠ g.header := by
  have hp := h.clear
  simp only [List.pairwise_append, List.pairwise_cons, List.mem_append, List.mem_cons] at hp hk
  have hclear : k.Clear g := by
    rcases hk with hk | hk
    · exact hp.2.2 k hk g (.inl rfl)
    · exact (hp.2.1.1 k hk).symm
  have hk' := k.header_lt_finish
  have hg' := g.header_lt_finish
  rcases hclear with hlt | hlt <;> omega

/-- A header before and a header after a segment differ. -/
theorem header_lt (h : Layout base top (l₁ ++ c :: l₂) loose) (hg : g ∈ l₁) (hk : k ∈ l₂) :
    g.header < k.header := by
  have hs := h.sorted
  rw [List.pairwise_append] at hs
  exact hs.2.2 g hg k (List.mem_cons_of_mem _ hk)

theorem nodup (h : Layout base top chain loose) : (chain.map (·.header)).Nodup :=
  (h.sorted.imp fun hlt => Nat.ne_of_lt hlt).map _ fun _ _ hne => hne

theorem nodup_frees (h : Layout base top chain loose) : (frees chain).Nodup :=
  h.nodup.sublist (List.filter_sublist.map _)

/-- The segments before a segment have lower headers, those behind it higher ones. -/
theorem header_lt_of_mem (h : Layout base top (l₁ ++ c :: l₂) loose) :
    (∀ g ∈ l₁, g.header < c.header) ∧ ∀ k ∈ l₂, c.header < k.header := by
  have hs := h.sorted
  rw [List.pairwise_append, List.pairwise_cons] at hs
  exact ⟨fun g hg => hs.2.2 g hg c List.mem_cons_self, hs.2.1.1⟩

/-- What comes behind a segment of the chain ends with a free segment. -/
theorem last_after (h : Layout base top (l₁ ++ c :: l₂) loose) :
    l₂ = [] ∧ c.free = true ∨ ∃ l g, l₂ = l ++ [g] ∧ g.free = true := by
  obtain ⟨l, g, hl, hfree⟩ := h.last
  rcases List.eq_nil_or_concat l₂ with rfl | ⟨l₃, k, rfl⟩
  · obtain ⟨-, hcg⟩ := List.append_inj' hl rfl
    simp only [List.cons.injEq, and_true] at hcg
    exact .inl ⟨rfl, hcg ▸ hfree⟩
  · rw [List.concat_eq_append, ← List.cons_append, ← List.append_assoc] at hl
    obtain ⟨-, hkg⟩ := List.append_inj' hl rfl
    simp only [List.cons.injEq, and_true] at hkg
    exact .inr ⟨l₃, k, List.concat_eq_append .., hkg ▸ hfree⟩

/-- Without a free segment behind it a segment is the last. -/
theorem eq_nil_of_frees (h : Layout base top (l₁ ++ c :: l₂) loose) (hl : frees l₂ = []) :
    l₂ = [] := by
  rcases h.last_after with ⟨rfl, -⟩ | ⟨l, g, rfl, hfree⟩
  · rfl
  · rw [frees_append, frees_cons_of_free hfree] at hl
    simp at hl

/-- Behind a live segment of the chain comes a free one. -/
theorem frees_after (h : Layout base top (l₁ ++ c :: l₂) loose) (hlive : c.free = false) :
    ∃ y l, frees l₂ = y :: l ∧ c.header < y := by
  cases hf : frees l₂ with
  | nil =>
      rcases h.last_after with ⟨-, hfree⟩ | ⟨l, g, rfl, -⟩
      · rw [hlive] at hfree
        exact absurd hfree (by decide)
      · exact absurd (h.eq_nil_of_frees hf) (by simp)
  | cons y l =>
      obtain ⟨k, hk, -, rfl⟩ := mem_frees.mp (hf ▸ List.mem_cons_self : y ∈ frees l₂)
      exact ⟨_, l, rfl, h.header_lt_of_mem.2 k hk⟩

/-- The addresses that the allocator may write headers at: null and the segments. -/
def headers (chain loose : List Segment) : Set Nat :=
  {x | x = 0 ∨ ∃ g ∈ chain ++ loose, g.header = x}

theorem zero_mem_headers : 0 ∈ headers chain loose := Or.inl rfl

theorem mem_headers (hg : g ∈ chain ++ loose) : g.header ∈ headers chain loose :=
  Or.inr ⟨g, hg, rfl⟩

theorem mem_headers_of_mem (hg : g ∈ chain) : g.header ∈ headers chain loose :=
  mem_headers (List.mem_append_left _ hg)

theorem mem_headers_of_other {part : List Segment} (hk : k ∈ l₁ ++ l₂ ++ loose) :
    k.header ∈ headers (l₁ ++ part ++ l₂) loose := by
  apply mem_headers
  simp only [List.mem_append] at hk ⊢
  tauto

/-- No segment overlaps the header that a null pointer points to. -/
theorem header_eq_zero_or_le (h : Layout base top chain loose) (hg : g ∈ chain ++ loose) :
    g.header = 0 ∨ 24 ≤ g.header := by
  rcases h.null with hbase | hbase
  · obtain ⟨k, hk, hk0⟩ := h.first
    by_cases heq : g = k
    · exact .inl (by rw [heq, hk0, hbase])
    · have hk' := k.header_add_le_finish
      have hg' := g.header_add_le_finish
      rcases h.clear_of_ne hg (List.mem_append_left _ hk) heq with hlt | hlt
      · omega
      · exact .inr (by omega)
  · exact .inr (hbase.trans (h.inside g hg).1)

/-- No two headers of a layout overlap. -/
theorem separated (h : Layout base top chain loose) : Separated (headers chain loose) := by
  constructor
  · rintro a (rfl | ⟨g, hg, rfl⟩)
    · decide
    · exact g.header_add_le_finish.trans ((h.inside g hg).2.trans h.limit)
  · rintro a (rfl | ⟨g, hg, rfl⟩) b (rfl | ⟨k, hk, rfl⟩) hne
    · exact absurd rfl hne
    · rcases h.header_eq_zero_or_le hk with h0 | h24
      · exact absurd h0.symm hne
      · exact .inl (by omega)
    · rcases h.header_eq_zero_or_le hg with h0 | h24
      · exact absurd h0 hne
      · exact .inr (by omega)
    · have hg' := g.header_add_le_finish
      have hk' := k.header_add_le_finish
      rcases h.clear_of_ne hg hk (fun heq => hne (heq ▸ rfl)) with hlt | hlt
      · exact .inl (by omega)
      · exact .inr (by omega)

/-- Segments may be replaced by others in the same place: `old` and `new` both fill
the bytes from `lo` to `hi`. -/
theorem replace {old new : List Segment} {lo hi : Nat}
    (h : Layout base top (l₁ ++ old ++ l₂) loose)
    (hfills : ∀ k : Segment, (∀ o ∈ old, o.Clear k) → hi ≤ k.header ∨ k.finish ≤ lo)
    (hold : ∀ o ∈ old, lo ≤ o.header) (hlo : ∃ o ∈ old, o.header = lo)
    (hhi : hi ≤ top) (hnew : ∀ g ∈ new, lo ≤ g.header ∧ g.finish ≤ hi)
    (hsorted : new.Pairwise fun g k => g.finish ≤ k.header)
    (hfirst : ∃ g ∈ new, g.header = lo)
    (hlast : ∃ l g, new = l ++ [g] ∧ g.free = true) :
    Layout base top (l₁ ++ new ++ l₂) loose := by
  obtain ⟨o, ho, holo⟩ := hlo
  obtain ⟨e, he, helo⟩ := hfirst
  have helt := e.header_lt_finish
  have hehi := (hnew e he).2
  have hbase : base ≤ lo := holo ▸ (h.inside o (by simp [ho])).1
  have hother : ∀ k ∈ l₁ ++ l₂ ++ loose, hi ≤ k.header ∨ k.finish ≤ lo := by
    intro k hk
    apply hfills
    intro x hx
    exact (h.clear_of_mem hk hx).symm
  have hclear : ∀ g ∈ new, ∀ k ∈ l₁ ++ l₂ ++ loose, g.Clear k := by
    intro g hg k hk
    have hg' := hnew g hg
    rcases hother k hk with hlt | hlt
    · exact .inl (hg'.2.trans hlt)
    · exact .inr (hlt.trans hg'.1)
  have hbefore : ∀ k ∈ l₁, k.finish ≤ lo := by
    intro k hk
    have hs := h.sorted
    simp only [List.pairwise_append, List.mem_append] at hs
    have hlt := hs.1.2.2 k hk o ho
    rcases hother k (by simp [hk]) with hle | hle
    · omega
    · exact hle
  have hafter : ∀ k ∈ l₂, hi ≤ k.header := by
    intro k hk
    have hs := h.sorted
    simp only [List.pairwise_append, List.mem_append] at hs
    have hlt := hs.2.2 o (.inr ho) k hk
    have hk' := k.header_lt_finish
    rcases hother k (by simp [hk]) with hle | hle
    · exact hle
    · omega
  constructor
  · exact h.null
  · obtain ⟨g, hg, hgb⟩ := h.first
    simp only [List.mem_append] at hg
    rcases hg with (hg | hg) | hg
    · exact ⟨g, by simp [hg], hgb⟩
    · have := hold g hg
      exact ⟨e, by simp [he], by omega⟩
    · exact ⟨g, by simp [hg], hgb⟩
  · exact h.limit
  · intro g hg
    simp only [List.mem_append] at hg
    rcases hg with ((hg | hg) | hg) | hg
    · exact h.inside g (by simp [hg])
    · exact ⟨hbase.trans (hnew g hg).1, (hnew g hg).2.trans hhi⟩
    · exact h.inside g (by simp [hg])
    · exact h.inside g (by simp [hg])
  · have hp := h.clear
    simp only [List.pairwise_append, List.mem_append] at hp ⊢
    refine ⟨⟨⟨hp.1.1.1, hsorted.imp fun hle => .inl hle, ?_⟩, hp.1.2.1, ?_⟩, hp.2.1, ?_⟩
    · intro x hx g hg
      exact (hclear g hg x (by simp [hx])).symm
    · rintro g (hg | hg) k hk
      · exact hp.1.2.2 g (.inl hg) k hk
      · exact hclear g hg k (by simp [hk])
    · rintro g ((hg | hg) | hg) k hk
      · exact hp.2.2 g (.inl (.inl hg)) k hk
      · exact hclear g hg k (by simp [hk])
      · exact hp.2.2 g (.inr hg) k hk
  · have hs := h.sorted
    simp only [List.pairwise_append, List.mem_append] at hs ⊢
    refine ⟨⟨hs.1.1, ?_, ?_⟩, hs.2.1, ?_⟩
    · exact hsorted.imp fun {g k} hle => g.header_lt_finish.trans_le hle
    · intro k hk g hg
      exact k.header_lt_finish.trans_le ((hbefore k hk).trans (hnew g hg).1)
    · rintro g (hg | hg) k hk
      · exact hs.2.2 g (.inl hg) k hk
      · exact g.header_lt_finish.trans_le ((hnew g hg).2.trans (hafter k hk))
  · obtain ⟨l, g, hlg, hg⟩ := h.last
    rcases List.eq_nil_or_concat l₂ with rfl | ⟨l₃, k, rfl⟩
    · obtain ⟨l, g, rfl, hg⟩ := hlast
      exact ⟨l₁ ++ l, g, by simp, hg⟩
    · rw [List.concat_eq_append, ← List.append_assoc] at hlg
      obtain ⟨-, hkg⟩ := List.append_inj' hlg rfl
      refine ⟨l₁ ++ new ++ l₃, k, by simp, ?_⟩
      simp only [List.cons.injEq, and_true] at hkg
      exact hkg ▸ hg
  · exact h.live

/-- A free segment gives up its head. -/
theorem split {size : Nat} (h : Layout base top (l₁ ++ c :: l₂) loose)
    (hsize : size + 24 ≤ c.size) :
    Layout base top (l₁ ++ c.take size :: c.rest size :: l₂) loose := by
  have hin := h.inside c (by simp)
  have hrest := Segment.rest_finish hsize
  have htake := (c.rest size).header_lt_finish
  have hold : Layout base top (l₁ ++ [c] ++ l₂) loose := by simpa using h
  have hreplace : Layout base top (l₁ ++ [c.take size, c.rest size] ++ l₂) loose := by
    apply hold.replace (fun k hk => hk c (by simp)) (by simp) ⟨c, by simp, rfl⟩
    · exact hin.2
    · intro g hg
      simp only [List.mem_cons, List.not_mem_nil, or_false] at hg
      rcases hg with rfl | rfl
      · exact ⟨le_rfl, by rw [Segment.take_finish]; omega⟩
      · exact ⟨by rw [Segment.rest_header]; omega, hrest.le⟩
    · simp [Segment.take_finish]
    · exact ⟨_, List.mem_cons_self, rfl⟩
    · exact ⟨[_], _, rfl, rfl⟩
  simpa using hreplace

/-- A live segment of the chain becomes free. -/
theorem release (h : Layout base top (l₁ ++ c :: l₂) loose) :
    Layout base top (l₁ ++ c.release :: l₂) loose := by
  have hold : Layout base top (l₁ ++ [c] ++ l₂) loose := by simpa using h
  have hreplace : Layout base top (l₁ ++ [c.release] ++ l₂) loose := by
    apply hold.replace (fun k hk => hk c (by simp)) (by simp) ⟨c, by simp, rfl⟩
    · exact (h.inside c (by simp)).2
    · simp
    · simp
    · simp
    · exact ⟨[], _, rfl, rfl⟩
  simpa using hreplace

/-- Two segments with nothing between them become one. -/
theorem absorb {a b : Segment} (h : Layout base top (l₁ ++ a :: b :: l₂) loose)
    (hadj : a.finish = b.header) : Layout base top (l₁ ++ a.absorb b :: l₂) loose := by
  have ha := a.header_lt_finish
  have hb := b.header_lt_finish
  have hfin := Segment.absorb_finish hadj
  have hold : Layout base top (l₁ ++ [a, b] ++ l₂) loose := by simpa using h
  have hfills : ∀ k : Segment, (∀ o ∈ [a, b], o.Clear k) →
      b.finish ≤ k.header ∨ k.finish ≤ a.header := by
    intro k hk
    have hk' := k.header_lt_finish
    rcases hk a (by simp) with hak | hak <;> rcases hk b (by simp) with hbk | hbk
    · exact .inl hbk
    · omega
    · exact .inl hbk
    · exact .inr hak
  have hheaders : ∀ o ∈ [a, b], a.header ≤ o.header := by
    intro o ho
    simp only [List.mem_cons, List.not_mem_nil, or_false] at ho
    rcases ho with rfl | rfl <;> omega
  have hreplace : Layout base top (l₁ ++ [a.absorb b] ++ l₂) loose := by
    apply hold.replace hfills hheaders ⟨a, by simp, rfl⟩
    · exact (h.inside b (by simp)).2
    · intro g hg
      rw [List.mem_singleton] at hg
      subst hg
      exact ⟨le_rfl, hfin.le⟩
    · simp
    · exact ⟨_, List.mem_cons_self, rfl⟩
    · exact ⟨[], _, rfl, rfl⟩
  simpa using hreplace

/-- New segments above the old ones; the last of the new ones is free. -/
theorem extend {top' : Nat} {new : List Segment} (h : Layout base top chain loose)
    (htop : top ≤ top') (hlimit : top' ≤ 4294967296)
    (hnew : ∀ g ∈ new, top ≤ g.header ∧ g.finish ≤ top')
    (hsorted : new.Pairwise fun g k => g.finish ≤ k.header)
    (hlast : ∃ l g, new = l ++ [g] ∧ g.free = true) :
    Layout base top' (chain ++ new) loose := by
  have hclear : ∀ k ∈ chain ++ loose, ∀ g ∈ new, k.Clear g :=
    fun k hk g hg => .inl ((h.inside k hk).2.trans (hnew g hg).1)
  constructor
  · exact h.null
  · obtain ⟨g, hg, hgb⟩ := h.first
    exact ⟨g, by simp [hg], hgb⟩
  · exact hlimit
  · intro g hg
    simp only [List.mem_append] at hg
    rcases hg with (hg | hg) | hg
    · have := h.inside g (by simp [hg])
      exact ⟨this.1, this.2.trans htop⟩
    · obtain ⟨k, hk, hkb⟩ := h.first
      have := h.inside k (by simp [hk])
      have hk' := k.header_lt_finish
      exact ⟨by have := (hnew g hg).1; omega, (hnew g hg).2⟩
    · have := h.inside g (by simp [hg])
      exact ⟨this.1, this.2.trans htop⟩
  · have hp := h.clear
    simp only [List.pairwise_append, List.mem_append] at hp ⊢
    refine ⟨⟨hp.1, hsorted.imp fun hle => .inl hle, ?_⟩, hp.2.1, ?_⟩
    · exact fun k hk g hg => hclear k (by simp [hk]) g hg
    · rintro g (hg | hg) k hk
      · exact hp.2.2 g hg k hk
      · exact (hclear k (by simp [hk]) g hg).symm
  · have hs := h.sorted
    rw [List.pairwise_append]
    refine ⟨hs, hsorted.imp fun {g k} hle => g.header_lt_finish.trans_le hle, ?_⟩
    intro k hk g hg
    exact k.header_lt_finish.trans_le
      ((h.inside k (by simp [hk])).2.trans (hnew g hg).1)
  · obtain ⟨l, g, rfl, hg⟩ := hlast
    exact ⟨chain ++ l, g, by simp, hg⟩
  · exact h.live

/-- A live block above all segments that the chain does not lead to. -/
theorem addLoose {top' : Nat} (h : Layout base top chain loose) (htop : top ≤ top')
    (hlimit : top' ≤ 4294967296) (hg : top ≤ g.header) (hg' : g.finish ≤ top')
    (hlive : g.free = false) : Layout base top' chain (g :: loose) := by
  obtain ⟨k, hk, hkb⟩ := h.first
  have hbase := h.inside k (by simp [hk])
  have hk' := k.header_lt_finish
  constructor
  · exact h.null
  · exact h.first
  · exact hlimit
  · intro x hx
    simp only [List.mem_append, List.mem_cons] at hx
    rcases hx with hx | rfl | hx
    · have := h.inside x (by simp [hx])
      exact ⟨this.1, this.2.trans htop⟩
    · exact ⟨by omega, hg'⟩
    · have := h.inside x (by simp [hx])
      exact ⟨this.1, this.2.trans htop⟩
  · have hp := h.clear
    simp only [List.pairwise_append, List.pairwise_cons, List.mem_cons] at hp ⊢
    refine ⟨hp.1, ⟨?_, hp.2.1⟩, ?_⟩
    · intro x hx
      exact .inr ((h.inside x (by simp [hx])).2.trans hg)
    · rintro x hx y (rfl | hy)
      · exact .inl ((h.inside x (by simp [hx])).2.trans hg)
      · exact hp.2.2 x hx y hy
  · exact h.sorted
  · exact h.last
  · intro x hx
    rcases List.mem_cons.mp hx with rfl | hx
    · exact hlive
    · exact h.live x hx

/-- More mapped pages. -/
theorem raise {top' : Nat} (h : Layout base top chain loose) (htop : top ≤ top')
    (hlimit : top' ≤ 4294967296) : Layout base top' chain loose :=
  { h with
    limit := hlimit
    inside := fun g hg => ⟨(h.inside g hg).1, (h.inside g hg).2.trans htop⟩ }

end Layout

end NickOS3.Heap
