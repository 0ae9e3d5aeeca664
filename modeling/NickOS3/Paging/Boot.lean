import NickOS3.Paging.Memory
import Mathlib.Data.Nat.Bitwise
import Mathlib.Tactic.NormNum

/-!
# The page tables of the boot code

The five routines that fill the page directory and the tables before paging is on, over
whatever memory holds, and what the words of the directory and the tables are after them.
-/

namespace NickOS3.Paging

/-- `mov [address], byte b`, without paging. -/
def Frames.writeByte (m : Frames) (address b : Nat) : Frames :=
  let word := m (pageOf address) (wordOf address)
  let low := 256 ^ (address % 4)
  m.set (pageOf address) (wordOf address)
    ((word % low + b * low + word / (low * 256) * (low * 256)) % 4294967296)

/-- `mov [address], eax`, without paging. -/
def Frames.writeWord (m : Frames) (address word : Nat) : Frames :=
  m.set (pageOf address) (wordOf address) word

/-- Clear the bytes from `address` on. -/
def clearBytes : Nat → Nat → Frames → Frames
  | _, 0, m => m
  | address, n + 1, m => clearBytes (address + 1) n (m.writeByte address 0)

def clearPageDirectory (m : Frames) : Frames := clearBytes 0x6000 0x1000 m

def clearPageTables (m : Frames) : Frames := clearBytes 0x01100000 0x400000 m

/-- The macro `page_directory_definition`, repeated for the pages from `i` on. -/
def defineEntries (tables directory : Nat) : Nat → Nat → Frames → Frames
  | _, 0, m => m
  | i, n + 1, m =>
      defineEntries tables directory (i + 1) n
        (m.writeWord (directory + i * 4) (tables + i * 0x1000 + 3))

def createPageDirectory (m : Frames) : Frames :=
  defineEntries (0x01100000 + 0x00300000) (0x6000 + 0xC00) 0 6
    (defineEntries 0x01100000 0x6000 0 6 m)

/-- The loops that fill page tables, from entry `eax` on. -/
def fillPageTable (tables : Nat) : Nat → Nat → Frames → Frames
  | _, 0, m => m
  | eax, n + 1, m =>
      fillPageTable tables (eax + 1) n (m.writeWord (tables + eax * 4) (eax * 0x1000 ||| 3))

def createIdentityPageTable (m : Frames) : Frames := fillPageTable 0x01100000 0 (6 * 0x1000) m

def createKernelPageTable (m : Frames) : Frames :=
  fillPageTable (0x01100000 + 0x00300000) 0 (6 * 0x1000) m

/-- Memory as the boot code leaves it when it turns paging on. -/
def bootMemory (m : Frames) : Frames :=
  createKernelPageTable (createIdentityPageTable (createPageDirectory
    (clearPageTables (clearPageDirectory m))))

section Clearing

variable (m : Frames)

/-- Clearing the four bytes of a word makes it zero. -/
theorem clearBytes_word {address : Nat} (h : address % 4 = 0) (n : Nat) :
    clearBytes address (n + 4) m
      = clearBytes (address + 4) n (m.set (pageOf address) (wordOf address) 0) := by
  have hpage : ∀ k < 4, pageOf (address + k) = pageOf address := by
    intro k hk; unfold pageOf; omega
  have hword : ∀ k < 4, wordOf (address + k) = wordOf address := by
    intro k hk; unfold wordOf; omega
  have hmod : ∀ k < 4, (address + k) % 4 = k := by intro k hk; omega
  simp only [clearBytes, Frames.writeByte, Nat.add_assoc, Nat.reduceAdd, hpage 1 (by omega),
    hpage 2 (by omega), hpage 3 (by omega), hword 1 (by omega), hword 2 (by omega),
    hword 3 (by omega), hmod 1 (by omega), hmod 2 (by omega), hmod 3 (by omega), h,
    Frames.set_self, Frames.set_set]
  congr 2
  omega

/-- Which words `clearBytes` clears. -/
theorem clearBytes_apply {address count : Nat} (h : address % 4 = 0) (n f i : Nat)
    (hi : i < 1024) (hcount : count = 4 * n) :
    clearBytes address count m f i
      = if address / 4 ≤ f * 1024 + i ∧ f * 1024 + i < address / 4 + n then 0 else m f i := by
  induction n generalizing address count m with
  | zero =>
      obtain rfl : count = 0 := hcount
      simp [clearBytes]
  | succ n ih =>
      obtain rfl : count = 4 * n + 4 := by omega
      rw [clearBytes_word m h, ih _ (by omega) rfl, Frames.set_apply]
      unfold pageOf wordOf
      split_ifs <;> omega

end Clearing

section Filling

variable (m : Frames)

theorem defineEntries_apply (tables directory : Nat) (h : directory % 4 = 0) (i n f j : Nat)
    (hj : j < 1024) :
    defineEntries tables directory i n m f j
      = if directory / 4 + i ≤ f * 1024 + j ∧ f * 1024 + j < directory / 4 + i + n then
          tables + (f * 1024 + j - directory / 4) * 4096 + 3
        else m f j := by
  induction n generalizing i m with
  | zero => simp [defineEntries]
  | succ n ih =>
      rw [defineEntries, ih, Frames.writeWord, Frames.set_apply]
      unfold pageOf wordOf
      split_ifs <;> omega

theorem or_three (k : Nat) : k * 4096 ||| 3 = k * 4096 + 3 := by
  have h := Nat.two_pow_add_eq_or_of_lt (show 3 < 2 ^ 12 by decide) k
  rw [Nat.mul_comm]
  exact h.symm

theorem fillPageTable_apply (tables : Nat) (h : tables % 4 = 0) (eax n f j : Nat)
    (hj : j < 1024) :
    fillPageTable tables eax n m f j
      = if tables / 4 + eax ≤ f * 1024 + j ∧ f * 1024 + j < tables / 4 + eax + n then
          (f * 1024 + j - tables / 4) * 4096 + 3
        else m f j := by
  induction n generalizing eax m with
  | zero => simp [fillPageTable]
  | succ n ih =>
      rw [fillPageTable, ih, Frames.writeWord, Frames.set_apply, or_three]
      unfold pageOf wordOf
      split_ifs <;> omega

end Filling

section Routines

variable (m : Frames) (f j : Nat) (hj : j < 1024)
include hj

theorem clearPageDirectory_apply :
    clearPageDirectory m f j = if f = 6 then 0 else m f j := by
  rw [clearPageDirectory, clearBytes_apply m (by norm_num) 1024 f j hj (by norm_num)]
  split_ifs <;> omega

theorem clearPageTables_apply :
    clearPageTables m f j = if 0x1100 ≤ f ∧ f < 0x1500 then 0 else m f j := by
  rw [clearPageTables, clearBytes_apply m (by norm_num) 1048576 f j hj (by norm_num)]
  split_ifs <;> omega

theorem createPageDirectory_apply :
    createPageDirectory m f j =
      if f = 6 ∧ j < 6 then (0x1100 + j) * 4096 + 3
      else if f = 6 ∧ 768 ≤ j ∧ j < 774 then (0x1400 + (j - 768)) * 4096 + 3
      else m f j := by
  rw [createPageDirectory, defineEntries_apply _ _ _ (by norm_num) _ _ _ _ hj,
    defineEntries_apply _ _ _ (by norm_num) _ _ _ _ hj]
  split_ifs <;> omega

theorem createIdentityPageTable_apply :
    createIdentityPageTable m f j =
      if 0x1100 ≤ f ∧ f < 0x1118 then ((f - 0x1100) * 1024 + j) * 4096 + 3 else m f j := by
  rw [createIdentityPageTable, fillPageTable_apply _ _ (by norm_num) _ _ _ _ hj]
  split_ifs <;> omega

theorem createKernelPageTable_apply :
    createKernelPageTable m f j =
      if 0x1400 ≤ f ∧ f < 0x1418 then ((f - 0x1400) * 1024 + j) * 4096 + 3 else m f j := by
  rw [createKernelPageTable, fillPageTable_apply _ _ (by norm_num) _ _ _ _ hj]
  split_ifs <;> omega

/-- The words of the directory and the tables, and those elsewhere. -/
theorem bootMemory_apply :
    bootMemory m f j =
      if f = 6 then
        if j < 6 then (0x1100 + j) * 4096 + 3
        else if 768 ≤ j ∧ j < 774 then (0x1400 + (j - 768)) * 4096 + 3
        else 0
      else if 0x1100 ≤ f ∧ f < 0x1118 then ((f - 0x1100) * 1024 + j) * 4096 + 3
      else if 0x1400 ≤ f ∧ f < 0x1418 then ((f - 0x1400) * 1024 + j) * 4096 + 3
      else if 0x1100 ≤ f ∧ f < 0x1500 then 0
      else m f j := by
  simp only [bootMemory, createKernelPageTable_apply _ _ _ hj,
    createIdentityPageTable_apply _ _ _ hj, createPageDirectory_apply _ _ _ hj,
    clearPageTables_apply _ _ _ hj, clearPageDirectory_apply _ _ _ hj]
  by_cases hf : f = 6
  · have hlow : ¬ 0x1100 ≤ f := by omega
    have hlow' : ¬ 0x1400 ≤ f := by omega
    simp only [hlow, hlow', false_and, if_false, if_pos hf]
    simp only [hf, true_and]
  · simp only [hf, false_and, if_false]
    split_ifs <;> omega

end Routines

end NickOS3.Paging
