import NickOS3.Heap.Allocator

/-!
# What the allocator's steps write

For headers that do not overlap, each step of the allocator is described field by
field. `A` holds the headers in play; the null pointer counts as one of them, since
the code writes through it.
-/

namespace NickOS3.Heap

variable {A : Set Nat}

section Split

variable {size c n : Nat} {s : HeapState}

/-- The fields after `mallocSplit`, for a remainder at `n` that is a new header. -/
theorem mallocSplit_read (hA : Separated A) (hc : c ∈ A) (hn : n ∈ A)
    (hnew : n = u32 (c + headerSize + size)) (hcn : c ≠ n) (hn0 : n ≠ 0)
    (hpf : s.memory.read c .previousFreeSegment ∈ A)
    (hps : s.memory.read c .previousSegment ∈ A)
    (hpfn : s.memory.read c .previousFreeSegment ≠ n)
    (hpsn : s.memory.read c .previousSegment ≠ n) {x : Nat} (hx : x ∈ A) (f : Field) :
    (mallocSplit size c s).1.memory.read x f =
      match f with
      | .memoryLength =>
          if x = n then
            u32 (s.memory.read c .memoryLength + 4294967296 - u32 (headerSize + size))
          else if x = c then size else s.memory.read x f
      | .nextSegment =>
          if x = n then s.memory.read c .nextSegment
          else if x = c then n else s.memory.read x f
      | .previousSegment => if x = n then c else s.memory.read x f
      | .nextFreeSegment =>
          if x = n then s.memory.read c .nextFreeSegment
          else if x = c ∨ x ≠ 0 ∧ (x = s.memory.read c .previousFreeSegment ∨
            x = s.memory.read c .previousSegment) then n
          else s.memory.read x f
      | .previousFreeSegment =>
          if x = n then s.memory.read c .previousFreeSegment else s.memory.read x f
      | .free => if x = n then 1 else if x = c then 0 else s.memory.read x f := by
  unfold mallocSplit
  simp only [← hnew]
  have hread := hA.read_write
  cases f <;>
    simp [hread, hc, hn, hx, hpf, hps, hcn, hn0] <;>
    grind

/-- The fields that the segment chain is made of, also when the back link to the free
segment is stale. -/
theorem mallocSplit_read_chain (hA : Separated A) (hc : c ∈ A) (hn : n ∈ A)
    (hnew : n = u32 (c + headerSize + size)) (hcn : c ≠ n)
    (hpf : s.memory.read c .previousFreeSegment = 0 ∨
      s.memory.read c .previousFreeSegment ∈ A)
    (hps : s.memory.read c .previousSegment = 0 ∨ s.memory.read c .previousSegment ∈ A)
    {x : Nat} (hx : x ∈ A) :
    (mallocSplit size c s).1.memory.read x .memoryLength =
        (if x = n then
          u32 (s.memory.read c .memoryLength + 4294967296 - u32 (headerSize + size))
        else if x = c then size else s.memory.read x .memoryLength) ∧
      (mallocSplit size c s).1.memory.read x .nextSegment =
        (if x = n then s.memory.read c .nextSegment
        else if x = c then n else s.memory.read x .nextSegment) ∧
      (mallocSplit size c s).1.memory.read x .previousSegment =
        (if x = n then c else s.memory.read x .previousSegment) ∧
      (mallocSplit size c s).1.memory.read x .free =
        (if x = n then 1 else if x = c then 0 else s.memory.read x .free) := by
  unfold mallocSplit
  simp only [← hnew]
  have hread := hA.read_write
  rcases hpf with hpf | hpf <;> rcases hps with hps | hps <;>
    simp [hread, hc, hn, hx, hpf, hps, hcn] <;>
    grind

/-- `mallocSplit` writes only headers in play. -/
theorem mallocSplit_writesIn (hA : Separated A) (hc : c ∈ A) (hn : n ∈ A)
    (hnew : n = u32 (c + headerSize + size)) (hcn : c ≠ n)
    (hpf : s.memory.read c .previousFreeSegment ∈ A)
    (hps : s.memory.read c .previousSegment ∈ A) (h : s.memory.WritesIn A) :
    (mallocSplit size c s).1.memory.WritesIn A := by
  unfold mallocSplit
  simp only [← hnew]
  have hread := hA.read_write
  apply Memory.WritesIn.ite
  · apply Memory.WritesIn.ite
    · apply Memory.WritesIn.ite
      · apply Memory.WritesIn.ite
        · simp [hc, hn, h]
        · simp [hread, hc, hn, hpf, hcn]
      · simp [hread, hc, hn, hpf, hcn]
    · simp [hread, hc, hn, hpf, hps, hcn]
  · simp [hread, hc, hn, hpf, hps, hcn]

theorem mallocSplit_nextFreePageIndex (size c : Nat) (s : HeapState) :
    (mallocSplit size c s).1.nextFreePageIndex = s.nextFreePageIndex := by
  rw [mallocSplit]

end Split

section Extend

variable {size c b n : Nat} {m m' : Memory}

/-- The fields after `linkNewPages` when the last new page is more than a header away
from full: `b` heads the block and `n` the segment after it. -/
theorem linkNewPages_read (hA : Separated A) (hc : c ∈ A) (hb : b ∈ A) (hn : n ∈ A)
    (hnew : n = u32 (b + headerSize + size)) (hcb : c ≠ b) (hcn : c ≠ n) (hbn : b ≠ n)
    (hrem : headerSize < size % PGSIZE) (h : linkNewPages size c b m = some m') :
    ∃ m₁ tmp, lastSegment m₁ c = some tmp ∧
      (∀ x ∈ A, x ≠ n → m₁.read x .nextSegment = m.read x .nextSegment) ∧
      ∀ x ∈ A, ∀ f, m'.read x f =
        match f with
        | .memoryLength => if x = n then size % PGSIZE - headerSize else m.read x f
        | .nextSegment =>
            if x = n then 0 else if x = c then b else if x = b then n else m.read x f
        | .previousSegment => if x = n then b else if x = b then tmp else m.read x f
        | .nextFreeSegment =>
            if x = n then 0 else if x = c ∨ x = b then n else m.read x f
        | .previousFreeSegment =>
            if x = n then
              if m.read c .free ≠ 0 then c else m.read c .previousFreeSegment
            else if x = b then c else m.read x f
        | .free => if x = n then 1 else if x = b then 0 else m.read x f := by
  unfold linkNewPages at h
  simp only [← hnew, if_pos hrem, gt_iff_lt] at h
  obtain ⟨tmp, htmp, rfl⟩ := Option.map_eq_some_iff.mp h
  have hread := hA.read_write
  refine ⟨_, tmp, htmp, ?_, ?_⟩
  · intro x hx hxn
    simp [hread, hx, hb, hn, hxn]
  · intro x hx f
    cases f <;> simp [hread, hx, hb, hn, hc] <;> grind

/-- The fields after `linkNewPages` when no segment is made after the block. -/
theorem linkNewPages_read_of_le (hA : Separated A) (hc : c ∈ A) (hb : b ∈ A)
    (hcb : c ≠ b) (hrem : size % PGSIZE ≤ headerSize) :
    ∃ m', linkNewPages size c b m = some m' ∧
      ∀ x ∈ A, ∀ f, m'.read x f =
        match f with
        | .memoryLength => m.read x f
        | .nextSegment => if x = c ∨ x = b then 0 else m.read x f
        | .previousSegment => if x = b then c else m.read x f
        | .nextFreeSegment => if x = c ∨ x = b then 0 else m.read x f
        | .previousFreeSegment =>
            if x = b then
              if m.read c .free ≠ 0 then c else m.read c .previousFreeSegment
            else m.read x f
        | .free => if x = b then 0 else m.read x f := by
  unfold linkNewPages
  simp only [gt_iff_lt, if_neg (Nat.not_lt.mpr hrem)]
  have hread := hA.read_write
  refine ⟨_, rfl, ?_⟩
  intro x hx f
  cases f <;> simp [hread, hx, hb, hc] <;> grind

/-- `linkNewPages` writes only headers in play. -/
theorem linkNewPages_writesIn (hc : c ∈ A) (hb : b ∈ A)
    (hn : headerSize < size % PGSIZE → u32 (b + headerSize + size) ∈ A)
    (h : m.WritesIn A) (hlink : linkNewPages size c b m = some m') : m'.WritesIn A := by
  unfold linkNewPages at hlink
  by_cases hrem : headerSize < size % PGSIZE
  · simp only [if_pos hrem, gt_iff_lt] at hlink
    obtain ⟨tmp, -, rfl⟩ := Option.map_eq_some_iff.mp hlink
    simp [hc, hb, hn hrem, h]
  · simp only [if_neg hrem, gt_iff_lt] at hlink
    obtain rfl := Option.some.inj hlink
    simp [hc, hb, h]

end Extend

section Free

variable {a b h : Nat} {m : Memory}

/-- The fields after one branch of `CombineFreeSegments`. -/
theorem absorb_read (hA : Separated A) (ha : a ∈ A) (hb : b ∈ A) (hab : a ≠ b)
    (hns : m.read b .nextSegment ∈ A) (hnf : m.read b .nextFreeSegment ∈ A)
    {x : Nat} (hx : x ∈ A) (f : Field) :
    (absorb a b m).read x f =
      match f with
      | .memoryLength =>
          if x = a then
            u32 (m.read a .memoryLength + (m.read b .memoryLength + headerSize))
          else m.read x f
      | .nextSegment => if x = a then m.read b .nextSegment else m.read x f
      | .previousSegment => if x = m.read b .nextSegment then a else m.read x f
      | .nextFreeSegment => if x = a then m.read b .nextFreeSegment else m.read x f
      | .previousFreeSegment =>
          if x = m.read b .nextSegment ∨ x = m.read b .nextFreeSegment then a
          else m.read x f
      | .free => m.read x f := by
  unfold absorb
  have hread := hA.read_write
  cases f <;> simp [hread, ha, hb, hx, hns, hnf, hab.symm]
  grind

/-- The fields that the segment chain is made of, also when the link to the next free
segment is stale. -/
theorem absorb_read_chain (hA : Separated A) (ha : a ∈ A) (hb : b ∈ A) (hab : a ≠ b)
    (hns : m.read b .nextSegment ∈ A)
    (hfits : m.read b .nextFreeSegment + 24 ≤ 4294967296) {x : Nat} (hx : x ∈ A)
    (hclear : x = m.read b .nextFreeSegment ∨ Apart x (m.read b .nextFreeSegment)) :
    (absorb a b m).read x .memoryLength =
        (if x = a then u32 (m.read a .memoryLength + (m.read b .memoryLength + headerSize))
        else m.read x .memoryLength) ∧
      (absorb a b m).read x .nextSegment =
        (if x = a then m.read b .nextSegment else m.read x .nextSegment) ∧
      (absorb a b m).read x .previousSegment =
        (if x = m.read b .nextSegment then a else m.read x .previousSegment) ∧
      (absorb a b m).read x .nextFreeSegment =
        (if x = a then m.read b .nextFreeSegment else m.read x .nextFreeSegment) ∧
      (absorb a b m).read x .free = m.read x .free := by
  unfold absorb
  have hread := hA.read_write
  have hlast := fun m' : Memory => m'.read_write (hA.fits x hx) hfits hclear
  simp [hread, ha, hb, hx, hns, hab.symm, hlast]

/-- `relinkNextFree` writes at most the back link of the segment `h` points to. -/
theorem relinkNextFree_read (hA : Separated A)
    (hnf : m.read h .nextFreeSegment = 0 ∨ m.read h .nextFreeSegment ∈ A ∨
      h ≤ m.read (m.read h .nextFreeSegment) .previousFreeSegment)
    {x : Nat} (hx : x ∈ A) (f : Field) :
    (relinkNextFree h m).read x f =
      if f = .previousFreeSegment ∧ x ≠ 0 ∧ x = m.read h .nextFreeSegment ∧
        m.read x .previousFreeSegment < h then h
      else m.read x f := by
  unfold relinkNextFree
  have hread := hA.read_write
  rcases hnf with hnf | hnf | hnf
  · simp [hnf]
    grind
  · simp [hread, hnf, hx]
    grind
  · simp [Nat.not_lt.mpr hnf]
    grind

/-- `relinkPreviousFree` writes at most the link of the segment `h` points back to. -/
theorem relinkPreviousFree_read (hA : Separated A)
    (hpf : m.read h .previousFreeSegment = 0 ∨ m.read h .previousFreeSegment ∈ A ∨
      m.read (m.read h .previousFreeSegment) .nextFreeSegment ≤ h)
    {x : Nat} (hx : x ∈ A) (f : Field) :
    (relinkPreviousFree h m).read x f =
      if f = .nextFreeSegment ∧ x ≠ 0 ∧ x = m.read h .previousFreeSegment ∧
        h < m.read x .nextFreeSegment then h
      else m.read x f := by
  unfold relinkPreviousFree
  have hread := hA.read_write
  rcases hpf with hpf | hpf | hpf
  · simp [hpf]
    grind
  · simp [hread, hpf, hx]
    grind
  · simp [Nat.not_lt.mpr hpf]
    grind

end Free

end NickOS3.Heap
