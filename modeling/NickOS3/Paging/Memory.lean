import NickOS3.Foundation.Programs
import NickOS3.Words
import Mathlib.Logic.Function.Basic

/-!
# Physical memory and address translation

Physical memory is the 1024 words of each frame. A word read as an entry of the page
directory or of a page table has the bit fields of `page_directory_entry` and
`page_table_entry`, which lie alike. The processor translates with the directory in
frame 6, without remembering translations. `cr0` leaves write protection off, so the
kernel may write wherever it may read.
-/

namespace NickOS3.Paging

/-- The words of each physical frame. -/
abbrev Frames := Nat → Nat → Nat

/-! ## Entries -/

def present (entry : Nat) : Bool := entry % 2 == 1

def readWrite (entry : Nat) : Bool := entry / 2 % 2 == 1

def userSupervisor (entry : Nat) : Bool := entry / 4 % 2 == 1

/-- `page_table_base_addr` or `page_base_addr`, a frame number. -/
def baseAddr (entry : Nat) : Nat := entry / 4096 % 1048576

def setPresent (entry : Nat) : Nat := entry / 2 * 2 + 1

def clearPresent (entry : Nat) : Nat := entry / 2 * 2

def setReadWrite (entry : Nat) : Nat := entry / 4 * 4 + 2 + entry % 2

def setUserSupervisor (entry : Nat) : Nat := entry / 8 * 8 + 4 + entry % 4

def setBaseAddr (base entry : Nat) : Nat := entry % 4096 + base % 1048576 * 4096

section Entries

variable (entry base : Nat)

theorem present_iff : present entry = true ↔ entry % 2 = 1 := beq_iff_eq

theorem readWrite_iff : readWrite entry = true ↔ entry / 2 % 2 = 1 := beq_iff_eq

@[simp] theorem present_setPresent : present (setPresent entry) = true := by
  rw [present_iff, setPresent]; omega

@[simp] theorem present_clearPresent : present (clearPresent entry) = false := by
  rw [Bool.eq_false_iff, ne_eq, present_iff, clearPresent]; omega

@[simp] theorem present_setReadWrite : present (setReadWrite entry) = present entry := by
  rw [Bool.eq_iff_iff, present_iff, present_iff, setReadWrite]; omega

@[simp] theorem present_setUserSupervisor :
    present (setUserSupervisor entry) = present entry := by
  rw [Bool.eq_iff_iff, present_iff, present_iff, setUserSupervisor]; omega

@[simp] theorem present_setBaseAddr : present (setBaseAddr base entry) = present entry := by
  rw [Bool.eq_iff_iff, present_iff, present_iff, setBaseAddr]; omega

@[simp] theorem readWrite_setReadWrite : readWrite (setReadWrite entry) = true := by
  rw [readWrite_iff, setReadWrite]; omega

@[simp] theorem readWrite_setUserSupervisor :
    readWrite (setUserSupervisor entry) = readWrite entry := by
  rw [Bool.eq_iff_iff, readWrite_iff, readWrite_iff, setUserSupervisor]; omega

@[simp] theorem baseAddr_setPresent : baseAddr (setPresent entry) = baseAddr entry := by
  simp only [baseAddr, setPresent]; omega

@[simp] theorem baseAddr_clearPresent : baseAddr (clearPresent entry) = baseAddr entry := by
  simp only [baseAddr, clearPresent]; omega

@[simp] theorem baseAddr_setReadWrite : baseAddr (setReadWrite entry) = baseAddr entry := by
  simp only [baseAddr, setReadWrite]; omega

@[simp] theorem baseAddr_setUserSupervisor :
    baseAddr (setUserSupervisor entry) = baseAddr entry := by
  simp only [baseAddr, setUserSupervisor]; omega

@[simp] theorem baseAddr_setBaseAddr :
    baseAddr (setBaseAddr base entry) = base % 1048576 := by
  simp only [baseAddr, setBaseAddr]; omega

theorem baseAddr_lt : baseAddr entry < 1048576 := Nat.mod_lt _ (by decide)

end Entries

/-! ## Translation -/

/-- `cr3` holds `0x6000`. -/
def directoryFrame : Nat := 6

/-- `pd_no`, of a page number. -/
def slotOf (page : Nat) : Nat := page / 1024

/-- `pt_no`, of a page number. -/
def indexOf (page : Nat) : Nat := page % 1024

/-- What a page translates to. Both levels have to admit a write or a user access. -/
structure Mapping where
  frame : Nat
  readWrite : Bool
  userSupervisor : Bool
  deriving DecidableEq

/-- The two-level walk of the processor for a virtual page. -/
def walk (m : Frames) (page : Nat) : Option Mapping :=
  let pde := m directoryFrame (slotOf page)
  let pte := m (baseAddr pde) (indexOf page)
  if present pde && present pte then
    some ⟨baseAddr pte, readWrite pde && readWrite pte, userSupervisor pde && userSupervisor pte⟩
  else none

/-- One word of one frame changes. -/
def Frames.set (m : Frames) (frame index word : Nat) : Frames :=
  Function.update m frame (Function.update (m frame) index word)

theorem Frames.set_apply (m : Frames) (frame index word f i : Nat) :
    m.set frame index word f i = if f = frame ∧ i = index then word else m f i := by
  unfold Frames.set
  by_cases hf : f = frame
  · subst hf
    by_cases hi : i = index
    · simp [hi]
    · simp [hi]
  · simp [hf]

@[simp] theorem Frames.set_self (m : Frames) (frame index word : Nat) :
    m.set frame index word frame index = word := by
  simp [Frames.set_apply]

theorem Frames.set_set (m : Frames) (frame index w w' : Nat) :
    (m.set frame index w).set frame index w' = m.set frame index w' := by
  funext f i
  simp only [Frames.set_apply]
  split <;> simp

section Walk

variable {m m' : Frames} {page : Nat}

/-- A walk reads two words. -/
theorem walk_congr (hpde : m' directoryFrame (slotOf page) = m directoryFrame (slotOf page))
    (hpte : present (m directoryFrame (slotOf page)) →
      m' (baseAddr (m directoryFrame (slotOf page))) (indexOf page)
        = m (baseAddr (m directoryFrame (slotOf page))) (indexOf page)) :
    walk m' page = walk m page := by
  unfold walk
  simp only [hpde]
  cases h : present (m directoryFrame (slotOf page)) with
  | false => simp
  | true => simp only [hpte h]

theorem walk_eq_none_of_absent (h : present (m directoryFrame (slotOf page)) = false) :
    walk m page = none := by
  simp [walk, h]

theorem walk_of_present (hpde : present (m directoryFrame (slotOf page)) = true)
    {table pte : Nat} (htable : baseAddr (m directoryFrame (slotOf page)) = table)
    (hpte : m table (indexOf page) = pte) (hpresent : present pte = true) :
    walk m page = some ⟨baseAddr pte,
      readWrite (m directoryFrame (slotOf page)) && readWrite pte,
      userSupervisor (m directoryFrame (slotOf page)) && userSupervisor pte⟩ := by
  subst htable hpte
  simp [walk, hpde, hpresent]

/-- A translated page has its directory entry present. -/
theorem present_of_walk {mapping : Mapping} (h : walk m page = some mapping) :
    present (m directoryFrame (slotOf page)) = true := by
  by_contra hne
  rw [walk_eq_none_of_absent (by simpa using hne)] at h
  cases h

end Walk

/-- The frame a page translates to. -/
def frameOf (m : Frames) (page : Nat) : Option Nat := (walk m page).map Mapping.frame

/-! ## The kernel's memory -/

/-- `memory_type`; `unset` stands for the bytes that are no value of it. -/
inductive MemoryType
  | unset
  | free
  | allocated
  | reserved
  deriving DecidableEq

/-- `phys_page` -/
structure PhysPage where
  type : MemoryType
  physAddr : Nat

/-- A `virt_page*`: null, an entry of the table of a pool, or a local variable. -/
inductive VirtPagePtr
  | null
  | entry (pool : Nat) (index : Int)
  | local
  deriving DecidableEq

/-- `virt_page` -/
structure VirtPage where
  type : MemoryType
  baseVaddr : Nat
  nextPage : VirtPagePtr
  previousPage : VirtPagePtr

/-- `pool`. The table is the 512 entries from 0 on; around it lies other memory. -/
structure Pool where
  ring : Nat
  nextFreePageIndex : Int
  virtualPages : Int → VirtPage

/-- Physical memory and the kernel's variables; what stores make of the kernel's own frames
does not show in the variables. The last four fields are history: the addresses
`get_next_free_physical_page` returned, the directory entries `map_page` filled in, the
entries of `virtual_pages` that were accessed, and for each round of `palloc_heap` the pool
it was given and the pool whose index it advanced. -/
structure PagingState where
  frames : Frames
  physicalPageEntries : Nat → PhysPage
  pagecount : Int
  basePd : Nat
  pools : Nat → Pool
  kernelPool : Nat
  returned : List Nat
  installed : List Nat
  accessed : List (Nat × Int)
  advanced : List (Nat × Nat)

/-- Why the kernel stops: `PANIC`, a page that is not mapped, or the bound on recursion. -/
inductive Fault
  | panic
  | pageFault
  | diverges
  deriving DecidableEq

abbrev PageM := Foundation.Program PagingState Fault

/-- The page of a virtual address. -/
def pageOf (vaddr : Nat) : Nat := vaddr / 4096

/-- The word of its page that a virtual address lies in. -/
def wordOf (vaddr : Nat) : Nat := vaddr % 4096 / 4

/-- Change one word of one frame. -/
def PagingState.set (s : PagingState) (frame index word : Nat) : PagingState :=
  { s with frames := s.frames.set frame index word }

/-- Read the word at a virtual address. -/
def load (vaddr : Nat) : PageM Nat := fun s =>
  match walk s.frames (pageOf vaddr) with
  | some mapping => .ok (s.frames mapping.frame (wordOf vaddr), s)
  | none => .error .pageFault

/-- Read the word at a virtual address, change it and write it back, as an assignment to a
bit field does. -/
def modify (vaddr : Nat) (f : Nat → Nat) : PageM Unit := fun s =>
  match walk s.frames (pageOf vaddr) with
  | some mapping =>
      .ok ((), s.set mapping.frame (wordOf vaddr) (f (s.frames mapping.frame (wordOf vaddr))))
  | none => .error .pageFault

/-- Write the word at a virtual address. -/
def store (vaddr word : Nat) : PageM Unit := modify vaddr fun _ => word

/-- An assignment to the kernel's variables. -/
def assign (f : PagingState → PagingState) : PageM Unit := fun s => .ok ((), f s)

section Runs

variable {s : PagingState} {vaddr frame : Nat}

@[simp] theorem assign_run (f : PagingState → PagingState) : assign f s = .ok ((), f s) := rfl

theorem load_run (h : frameOf s.frames (pageOf vaddr) = some frame) :
    load vaddr s = .ok (s.frames frame (wordOf vaddr), s) := by
  obtain ⟨mapping, hwalk, rfl⟩ := Option.map_eq_some_iff.mp h
  simp [load, hwalk]

theorem modify_run (h : frameOf s.frames (pageOf vaddr) = some frame) (f : Nat → Nat) :
    modify vaddr f s
      = .ok ((), s.set frame (wordOf vaddr) (f (s.frames frame (wordOf vaddr)))) := by
  obtain ⟨mapping, hwalk, rfl⟩ := Option.map_eq_some_iff.mp h
  simp [modify, hwalk]

/-- What a read that returns has read. -/
theorem load_frames {word : Nat} {s' : PagingState} (h : load vaddr s = .ok (word, s')) :
    ∃ frame, frameOf s.frames (pageOf vaddr) = some frame ∧
      word = s.frames frame (wordOf vaddr) ∧ s' = s := by
  unfold load at h
  split at h
  · rename_i mapping hwalk
    cases h
    refine ⟨mapping.frame, ?_, rfl, rfl⟩
    rw [frameOf, hwalk]
    rfl
  · cases h

/-- What a write that returns has changed. -/
theorem modify_frames {f : Nat → Nat} {s' : PagingState} (h : modify vaddr f s = .ok ((), s')) :
    ∃ frame, frameOf s.frames (pageOf vaddr) = some frame ∧
      s' = s.set frame (wordOf vaddr) (f (s.frames frame (wordOf vaddr))) := by
  unfold modify at h
  split at h
  · rename_i mapping hwalk
    refine ⟨mapping.frame, ?_, ?_⟩
    · rw [frameOf, hwalk]
      rfl
    · cases h
      rfl
  · cases h

end Runs

end NickOS3.Paging
