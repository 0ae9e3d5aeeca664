import NickOS3.Words
import Mathlib.Data.Set.Insert
import Mathlib.Logic.Function.Basic

/-!
# Segment headers in kernel memory

Memory is a map from byte addresses to the 32-bit words stored there. A
`MemorySegmentHeader` is six words: the allocator reads and writes memory only
through the fields of such headers, wherever a pointer says one is. Headers may
overlap; two headers that do not overlap are called apart.
-/

namespace NickOS3.Heap

/-- `sizeof(MemorySegmentHeader)`; the enumeration type `bool` takes a whole word. -/
def headerSize : Nat := 24

/-- The fields of `MemorySegmentHeader`. -/
inductive Field
  | memoryLength
  | nextSegment
  | previousSegment
  | nextFreeSegment
  | previousFreeSegment
  | free
  deriving DecidableEq

/-- The byte offset of a field. -/
def Field.offset : Field → Nat
  | memoryLength => 0
  | nextSegment => 4
  | previousSegment => 8
  | nextFreeSegment => 12
  | previousFreeSegment => 16
  | free => 20

theorem Field.offset_lt (f : Field) : f.offset + 4 ≤ 24 := by
  cases f <;> decide

theorem Field.offset_injective : Function.Injective Field.offset := by
  intro f g h
  cases f <;> cases g <;> first | rfl | exact absurd h (by decide)

/-- Memory, with the headers written so far, newest first. The second field is a
history variable: no function reads it. -/
structure Memory where
  words : Nat → Nat
  written : List Nat

namespace Memory

/-- `a->f` as a value. -/
def read (m : Memory) (a : Nat) (f : Field) : Nat := m.words (u32 (a + f.offset))

/-- `a->f = v` -/
def write (m : Memory) (a : Nat) (f : Field) (v : Nat) : Memory :=
  { words := Function.update m.words (u32 (a + f.offset)) v
    written := a :: m.written }

@[simp] theorem read_ite (p : Prop) [Decidable p] (m m' : Memory) (a : Nat) (f : Field) :
    (if p then m else m').read a f = if p then m.read a f else m'.read a f := by
  split <;> rfl

/-- No header outside `A` was written. -/
def WritesIn (m : Memory) (A : Set Nat) : Prop := ∀ x ∈ m.written, x ∈ A

@[simp] theorem writesIn_write {m : Memory} {A : Set Nat} {a : Nat} {f : Field} {v : Nat} :
    (m.write a f v).WritesIn A ↔ a ∈ A ∧ m.WritesIn A := by
  simp [WritesIn, write]

theorem WritesIn.ite {m : Memory} {A : Set Nat} {p : Prop} [Decidable p] {a : Nat} {f : Field}
    {v : Nat} (h : m.WritesIn A) (ha : p → a ∈ A) :
    (if p then m.write a f v else m).WritesIn A := by
  split
  · rename_i hp
    exact writesIn_write.mpr ⟨ha hp, h⟩
  · exact h

end Memory

/-- The headers at `a` and `b` do not overlap. -/
def Apart (a b : Nat) : Prop := a + 24 ≤ b ∨ b + 24 ≤ a

theorem Apart.symm {a b : Nat} (h : Apart a b) : Apart b a := Or.symm h

instance : Std.Symm Apart := ⟨fun _ _ => Apart.symm⟩

instance (a b : Nat) : Decidable (Apart a b) := inferInstanceAs (Decidable (_ ∨ _))

/-- Addresses whose headers lie in the address space and pairwise do not overlap. -/
structure Separated (A : Set Nat) : Prop where
  fits : ∀ a ∈ A, a + 24 ≤ 4294967296
  apart : ∀ a ∈ A, ∀ b ∈ A, a ≠ b → Apart a b

theorem Separated.mono {A B : Set Nat} (h : Separated B) (hle : A ⊆ B) : Separated A :=
  ⟨fun a ha => h.fits a (hle ha), fun a ha b hb => h.apart a (hle ha) b (hle hb)⟩

/-- A header that overlaps no other one may join. -/
theorem Separated.insert {A : Set Nat} (h : Separated A) {t : Nat}
    (hfits : t + 24 ≤ 4294967296) (hapart : ∀ x ∈ A, x = t ∨ Apart x t) :
    Separated (insert t A) := by
  constructor
  · rintro x (rfl | hx)
    · exact hfits
    · exact h.fits x hx
  · rintro x (rfl | hx) y (rfl | hy) hne
    · exact absurd rfl hne
    · exact ((hapart y hy).resolve_left hne.symm).symm
    · exact (hapart x hx).resolve_left hne
    · exact h.apart x hx y hy hne

/-- Writing a field of one header, read in the same header or in one that does not
overlap it. -/
theorem Memory.read_write (m : Memory) {a b : Nat} (ha : a + 24 ≤ 4294967296)
    (hb : b + 24 ≤ 4294967296) (hapart : a = b ∨ Apart a b) (f g : Field) (v : Nat) :
    (m.write b g v).read a f = if a = b ∧ f = g then v else m.read a f := by
  have hf := f.offset_lt
  have hg := g.offset_lt
  unfold Memory.read Memory.write
  dsimp only
  rw [u32_of_lt (by omega), u32_of_lt (by omega), Function.update_apply]
  have hiff : a + f.offset = b + g.offset ↔ a = b ∧ f = g := by
    constructor
    · intro heq
      rcases hapart with hab | hlt | hlt
      · exact ⟨hab, Field.offset_injective (by omega)⟩
      · omega
      · omega
    · rintro ⟨rfl, rfl⟩
      rfl
  simp only [hiff]

/-- Writing a field of a header leaves every other field of separated headers alone. -/
theorem Separated.read_write {A : Set Nat} (h : Separated A) (m : Memory) {a b : Nat}
    (ha : a ∈ A) (hb : b ∈ A) (f g : Field) (v : Nat) :
    (m.write b g v).read a f = if a = b ∧ f = g then v else m.read a f := by
  apply m.read_write (h.fits a ha) (h.fits b hb)
  by_cases hab : a = b
  · exact .inl hab
  · exact .inr (h.apart a ha b hb hab)

end NickOS3.Heap
