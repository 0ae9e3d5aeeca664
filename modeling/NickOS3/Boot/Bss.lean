import NickOS3.Lib.Blocks
import NickOS3.Paging.Allocator

/-!
# Clearing the BSS

The linker script sets `BSS_SECTION_START` where `.data` ends and `BSS_SECTION_END` where `.bss`
ends. `clear_bss` declares both as variables, so it clears what lies between the addresses that
memory holds at the two symbols, and not what lies between the symbols.
-/

namespace NickOS3.Boot

open Lib

/-! ## The section -/

/-- The alignment of an output section, `ALIGN(4K)`. -/
def alignUp (address : Nat) : Nat := (address + 4095) / 4096 * 4096

/-- Where the linker script puts `.bss`, and where `physical_page_entries` stands in it. -/
structure BssLayout where
  dataEnd : Nat
  size : Nat
  entries : Nat
  fits : alignUp dataEnd + size ≤ 4294967296
  inside : entries + 8 * Paging.MAX_PHYS_PAGES ≤ size

namespace BssLayout

variable (layout : BssLayout)

/-- `BSS_SECTION_START = .`, before the section is aligned. -/
def sectionStart : Nat := layout.dataEnd

/-- `BSS_SECTION_END = .` -/
def sectionEnd : Nat := alignUp layout.dataEnd + layout.size

/-- The addresses from `BSS_SECTION_START` up to `BSS_SECTION_END`. -/
def Within (x : Nat) : Prop := layout.sectionStart ≤ x ∧ x < layout.sectionEnd

/-- `physical_page_entries[i].type`; a `phys_page` has 8 bytes. -/
def entryType (i : Nat) : Nat := alignUp layout.dataEnd + layout.entries + 8 * i

end BssLayout

/-- `M_FREE` -/
def M_FREE : UInt8 := 1

/-! ## The code -/

/-- `a-b` for pointers to words, as an `int`. -/
def pointerDiff (a b : Nat) : Int := signed (u32 (a + 4294967296 - b)) / 4

def clearBss (layout : BssLayout) (m : Bytes) : Bytes :=
  let bssStart := readWord m layout.sectionStart
  let bssEnd := readWord m layout.sectionEnd
  let bssLength := pointerDiff bssEnd bssStart
  memset bssStart 0 (Paging.ofInt bssLength) m

/-! ## What is meant -/

/-- The section is cleared and nothing else has changed, so that no entry is `M_FREE`. -/
structure ClearsBss (layout : BssLayout) (m m' : Bytes) : Prop where
  cleared : ∀ x, layout.Within x → m' x = 0
  unchanged : ∀ x < 4294967296, ¬ layout.Within x → m' x = m x
  notFree : ∀ i < Paging.MAX_PHYS_PAGES, m' (layout.entryType i) ≠ M_FREE

/-- The addresses that are cleared for two pointers: all of them when the second lies before the
first. -/
def Between (bssStart bssEnd x : Nat) : Prop :=
  let length := offset bssStart bssEnd
  length < 2147483648 → offset bssStart x < length / 4 * 4

/-- The addresses that memory holds at the two symbols bound a range that differs from the section
only in bytes that are zero. -/
def BoundsHeld (layout : BssLayout) (m : Bytes) : Prop :=
  ∀ x < 4294967296, m x ≠ 0 → (layout.Within x ↔
    Between (readWord m layout.sectionStart) (readWord m layout.sectionEnd) x)

/-! ## `clear_bss` -/

section Clear

variable (layout : BssLayout) (m : Bytes)

theorem readWord_lt (a : Nat) : readWord m a < 4294967296 := by
  unfold readWord Bytes.word
  dsimp only
  have h₀ := (m (u32 a)).toNat_lt
  have h₁ := (m (u32 (a + 1))).toNat_lt
  have h₂ := (m (u32 (a + 2))).toNat_lt
  have h₃ := (m (u32 (a + 3))).toNat_lt
  omega

/-- The words that `memset` clears for two pointers. -/
theorem between_iff {bssStart bssEnd x : Nat} (hstart : bssStart < 4294967296) :
    offset bssStart x < 4 * Paging.ofInt (pointerDiff bssEnd bssStart) ↔
      Between bssStart bssEnd x := by
  have hlt := offset_lt bssStart x
  have hlength := offset_lt bssStart bssEnd
  have hdiff : pointerDiff bssEnd bssStart = signed (offset bssStart bssEnd) / 4 := by
    unfold pointerDiff offset
    rw [u32_of_lt hstart]
  unfold Between Paging.ofInt signed at *
  rw [hdiff]
  dsimp only
  split
  · rename_i hforward
    rw [forall_prop_of_true hforward]
    omega
  · rename_i hback
    rw [forall_prop_of_false hback]
    refine iff_of_true ?_ trivial
    omega

theorem clearBss_apply {x : Nat} (hx : x < 4294967296) :
    (Between (readWord m layout.sectionStart) (readWord m layout.sectionEnd) x →
      clearBss layout m x = 0) ∧
    (¬ Between (readWord m layout.sectionStart) (readWord m layout.sectionEnd) x →
      clearBss layout m x = m x) := by
  rw [clearBss, memset_apply, ← between_iff (readWord_lt m layout.sectionStart)]
  constructor
  · intro hin
    rw [if_pos ⟨hx, hin⟩, byteOf, Nat.zero_div]
    rfl
  · intro hout
    rw [if_neg fun hboth => hout hboth.2]

theorem BssLayout.Within.lt {layout : BssLayout} {x : Nat} (h : layout.Within x) :
    x < 4294967296 := Nat.lt_of_lt_of_le h.2 layout.fits

/-- The types of the entries lie in the section. -/
theorem BssLayout.within_entryType {i : Nat} (hi : i < Paging.MAX_PHYS_PAGES) :
    layout.Within (layout.entryType i) := by
  have hinside := layout.inside
  unfold Within sectionStart sectionEnd entryType alignUp
  omega

/-- Where memory holds the addresses of the symbols themselves, the words that the length counts are
those that `memset` counts. -/
theorem boundsHeld_of_addresses {layout : BssLayout} {m : Bytes}
    (hstart : readWord m layout.sectionStart = layout.sectionStart)
    (hend : readWord m layout.sectionEnd = layout.sectionEnd)
    (hwords : (layout.sectionEnd - layout.sectionStart) % 4 = 0)
    (hsize : layout.sectionEnd - layout.sectionStart < 2147483648) : BoundsHeld layout m := by
  intro x hx _
  have horder : layout.sectionStart ≤ layout.sectionEnd := by
    unfold BssLayout.sectionStart BssLayout.sectionEnd alignUp
    omega
  have hlt : layout.sectionEnd < 4294967296 := hend ▸ readWord_lt m _
  rw [hstart, hend]
  unfold BssLayout.Within Between offset u32
  dsimp only
  generalize layout.sectionStart = low at *
  generalize layout.sectionEnd = high at *
  have hlength : (high + 4294967296 - low % 4294967296) % 4294967296 = high - low := by omega
  rw [hlength, forall_prop_of_true hsize]
  omega

/-- `clear_bss` clears the section and nothing else just where the addresses that memory holds at
the two symbols bound it, up to bytes that are zero. -/
theorem clear_bss_clears_iff :
    ClearsBss layout m (clearBss layout m) ↔ BoundsHeld layout m := by
  constructor
  · intro h x hx hne
    obtain ⟨hin, hout⟩ := clearBss_apply layout m hx
    constructor
    · intro hwithin
      by_contra hbetween
      exact hne ((hout hbetween).symm.trans (h.cleared x hwithin))
    · intro hbetween
      by_contra hwithin
      exact hne ((h.unchanged x hx hwithin).symm.trans (hin hbetween))
  · intro h
    have hcleared : ∀ x, layout.Within x → clearBss layout m x = 0 := by
      intro x hwithin
      obtain ⟨hin, hout⟩ := clearBss_apply layout m hwithin.lt
      by_cases hbetween :
          Between (readWord m layout.sectionStart) (readWord m layout.sectionEnd) x
      · exact hin hbetween
      · rw [hout hbetween]
        by_contra hne
        exact hbetween ((h x hwithin.lt hne).mp hwithin)
    refine ⟨hcleared, ?_, ?_⟩
    · intro x hx hwithin
      obtain ⟨hin, hout⟩ := clearBss_apply layout m hx
      by_cases hbetween :
          Between (readWord m layout.sectionStart) (readWord m layout.sectionEnd) x
      · rw [hin hbetween]
        by_contra hne
        exact hwithin ((h x hx (Ne.symm hne)).mpr hbetween)
      · exact hout hbetween
    · intro i hi heq
      rw [hcleared _ (layout.within_entryType hi)] at heq
      exact absurd heq (by decide)

end Clear

/-! ## A section that is not cleared -/

/-- `.data` ends at a multiple of 4 KiB, and `physical_page_entries` is all of `.bss`. -/
def entriesLayout : BssLayout where
  dataEnd := 0xC0010000
  size := 0x8000
  entries := 0
  fits := by decide
  inside := by decide

/-- Memory is zero but for the type of the last entry. -/
def leftoverEntry : Bytes := fun x => if x = entriesLayout.entryType 4095 then M_FREE else 0

/-- The words at the two symbols are zero, so nothing is cleared. -/
theorem clear_bss_leaves_entry : ¬ ∀ layout m, ClearsBss layout m (clearBss layout m) := by
  intro h
  have hstart : readWord leftoverEntry entriesLayout.sectionStart = 0 := by decide
  have hend : readWord leftoverEntry entriesLayout.sectionEnd = 0 := by decide
  have hout : ¬ Between 0 0 (entriesLayout.entryType 4095) := by
    intro hbetween
    exact absurd (hbetween (by decide)) (by decide)
  have hkeep := (clearBss_apply entriesLayout leftoverEntry
    (show entriesLayout.entryType 4095 < 4294967296 by decide)).2
  rw [hstart, hend] at hkeep
  exact (h entriesLayout leftoverEntry).notFree 4095 (by decide)
    ((hkeep hout).trans (if_pos rfl))

end NickOS3.Boot
