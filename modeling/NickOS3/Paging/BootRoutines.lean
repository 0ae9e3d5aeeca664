import NickOS3.Paging.Boot
import Mathlib.Logic.Function.Iterate

/-!
# The boot routines, with their registers

The routines of `paging.asm` as they use the registers: each loop ends with a signed comparison of
`eax`. They come to their end, memory is then what `bootMemory` says, and the processor translates
the first 24 MiB and the kernel's window over them, and nothing else.
-/

namespace NickOS3.Paging

/-! ## The code -/

/-- The registers that the routines use, and memory. -/
structure BootState where
  eax : Nat
  ebx : Nat
  ecx : Nat
  memory : Frames

def PAGE_DIRECTORY_BASE : Nat := 0x00006000

def PAGE_TABLES_BASE : Nat := 0x01100000

def PAGES_COUNT : Nat := 6

namespace BootState

variable (s : BootState)

/-- A loop that ends with `inc eax`, `cmp eax, bound` and `jl`, for `n` rounds at most; none when it
has not come to its end by then. -/
def loop (bound : Nat) (body : BootState → BootState) : Nat → BootState → Option BootState
  | 0, _ => none
  | n + 1, s =>
      let s := body s
      let s := { s with eax := u32 (s.eax + 1) }
      if signed s.eax < signed bound then loop bound body n s else some s

/-- The body of the loops that clear: `mov [base + eax], byte 0`. -/
def clearEntry (base : Nat) : BootState :=
  { s with memory := s.memory.writeByte (u32 (base + s.eax)) 0 }

/-- `clear_page_directory` -/
def clearPageDirectory (n : Nat) : Option BootState :=
  loop 0x1000 (clearEntry · PAGE_DIRECTORY_BASE) n { s with eax := 0 }

/-- `clear_page_tables` -/
def clearPageTables (n : Nat) : Option BootState :=
  loop 0x400000 (clearEntry · PAGE_TABLES_BASE) n { s with eax := 0 }

/-- The macro `page_directory_definition`. -/
def pageDirectoryDefinition (table directory entry : Nat) : BootState :=
  let s := { s with eax := table + 3 }
  { s with memory := s.memory.writeWord (directory + entry) s.eax }

/-- `create_page_directory`: the macro stands there twice for each page, under `%rep`. -/
def createPageDirectory : BootState :=
  let s := (List.range PAGES_COUNT).foldl (fun s i =>
    s.pageDirectoryDefinition (PAGE_TABLES_BASE + i * 0x1000) PAGE_DIRECTORY_BASE (i * 4)) s
  (List.range PAGES_COUNT).foldl (fun s i =>
    s.pageDirectoryDefinition (PAGE_TABLES_BASE + 0x00300000 + i * 0x1000)
      (PAGE_DIRECTORY_BASE + 0xC00) (i * 4)) s

/-- The body of the loops that fill page tables, up to `inc eax`. -/
def fillEntry (tables : Nat) : BootState :=
  let s := { s with ecx := s.ebx }
  let s := { s with ecx := s.ecx ||| 3 }
  let s := { s with memory := s.memory.writeWord (u32 (tables + s.eax * 4)) s.ecx }
  { s with ebx := u32 (s.ebx + 0x1000) }

/-- `create_identity_page_table` -/
def createIdentityPageTable (n : Nat) : Option BootState :=
  loop (PAGES_COUNT * 0x1000) (fillEntry · PAGE_TABLES_BASE) n { s with eax := 0, ebx := 0 }

/-- `create_kernel_page_table` -/
def createKernelPageTable (n : Nat) : Option BootState :=
  loop (PAGES_COUNT * 0x1000) (fillEntry · (PAGE_TABLES_BASE + 0x00300000)) n
    { s with eax := 0, ebx := 0 }

/-- The calls of `BEGIN_PM` before `enable_paging`. -/
def bootRoutines (n : Nat) : Option BootState := do
  let s ← s.clearPageDirectory n
  let s ← s.clearPageTables n
  let s := s.createPageDirectory
  let s ← s.createIdentityPageTable n
  s.createKernelPageTable n

/-! ## The loops -/

variable {s}

/-- A loop whose body leaves `eax` alone runs to its bound. What holds of the rounds that are
done is `Done`, and `a` rounds are done when `eax` is `a`. -/
theorem loop_run {bound : Nat} {body : BootState → BootState} (Done : Nat → BootState → Prop)
    (hbound : bound < 2147483648)
    (hbody : ∀ a s, a < bound → s.eax = a → Done a s →
      (body s).eax = a ∧ Done (a + 1) { body s with eax := a + 1 })
    {a n : Nat} (ha : a < bound) (hn : bound - a ≤ n) (heax : s.eax = a) (hdone : Done a s) :
    ∃ s', loop bound body n s = some s' ∧ Done bound s' := by
  induction n generalizing a s with
  | zero => omega
  | succ n ih =>
      obtain ⟨hkeep, hnext⟩ := hbody a s ha heax hdone
      have hinc : u32 ((body s).eax + 1) = a + 1 := by
        rw [hkeep]
        exact u32_of_lt (by omega)
      rw [loop]
      dsimp only
      rw [hinc, signed_of_lt hbound, signed_of_lt (by omega)]
      by_cases hlast : a + 1 = bound
      · rw [if_neg (by omega)]
        exact ⟨_, rfl, hlast ▸ hnext⟩
      · rw [if_pos (by omega)]
        have hrest : a + 1 < bound := by omega
        have hrounds : bound - (a + 1) ≤ n := by omega
        exact ih hrest hrounds rfl hnext

/-- One more byte is cleared. -/
theorem clearBytes_succ (address n : Nat) (m : Frames) :
    clearBytes address (n + 1) m = (clearBytes address n m).writeByte (address + n) 0 := by
  induction n generalizing address m with
  | zero => rfl
  | succ n ih =>
      rw [clearBytes, ih (address + 1), clearBytes, Nat.add_assoc, Nat.add_comm 1 n]

theorem defineEntries_succ (tables directory i n : Nat) (m : Frames) :
    defineEntries tables directory i (n + 1) m =
      (defineEntries tables directory i n m).writeWord (directory + (i + n) * 4)
        (tables + (i + n) * 0x1000 + 3) := by
  induction n generalizing i m with
  | zero => rfl
  | succ n ih =>
      rw [defineEntries, ih (i + 1), defineEntries, show i + 1 + n = i + (n + 1) by omega]

theorem fillPageTable_succ (tables eax n : Nat) (m : Frames) :
    fillPageTable tables eax (n + 1) m =
      (fillPageTable tables eax n m).writeWord (tables + (eax + n) * 4)
        ((eax + n) * 0x1000 ||| 3) := by
  induction n generalizing eax m with
  | zero => rfl
  | succ n ih =>
      rw [fillPageTable, ih (eax + 1), fillPageTable, Nat.add_assoc, Nat.add_comm 1 n]

theorem clear_run {base bound n : Nat} (hbound : 0 < bound) (hfits : base + bound < 2147483648)
    (hn : bound ≤ n) :
    ∃ s', loop bound (clearEntry · base) n { s with eax := 0 } = some s' ∧
      s'.memory = clearBytes base bound s.memory := by
  refine loop_run (fun a s' => s'.memory = clearBytes base a s.memory) (by omega) ?_ hbound hn
    rfl rfl
  intro a s' ha heax hdone
  refine ⟨heax, ?_⟩
  dsimp only [clearEntry]
  rw [heax, hdone, clearBytes_succ, u32_of_lt (by omega)]

section Fill

variable (tables : Nat)

theorem fillEntry_eax : (s.fillEntry tables).eax = s.eax := by rw [fillEntry]

theorem fillEntry_ebx : (s.fillEntry tables).ebx = u32 (s.ebx + 0x1000) := by rw [fillEntry]

theorem fillEntry_memory : (s.fillEntry tables).memory =
    s.memory.writeWord (u32 (tables + s.eax * 4)) (s.ebx ||| 3) := by rw [fillEntry]

end Fill

/-- The first `a` entries of the tables are filled. -/
structure Filled (tables : Nat) (m : Frames) (a : Nat) (s : BootState) : Prop where
  ebx : s.ebx = a * 0x1000
  memory : s.memory = fillPageTable tables 0 a m

theorem Filled.entry {tables a : Nat} {m : Frames} (h : s.Filled tables m a)
    (htables : tables < 2147483648) (ha : a < 24576) (heax : s.eax = a) :
    Filled tables m (a + 1) { s.fillEntry tables with eax := a + 1 } := by
  constructor
  · change (s.fillEntry tables).ebx = _
    rw [fillEntry_ebx, h.ebx, ← Nat.succ_mul, u32_of_lt (by omega)]
  · change (s.fillEntry tables).memory = _
    rw [fillEntry_memory, heax, h.ebx, h.memory, fillPageTable_succ, u32_of_lt (by omega),
      Nat.zero_add]

theorem fill_run {tables n : Nat} (htables : tables < 2147483648) (hn : 24576 ≤ n) :
    ∃ s', loop (PAGES_COUNT * 0x1000) (fillEntry · tables) n { s with eax := 0, ebx := 0 } =
        some s' ∧
      s'.memory = fillPageTable tables 0 (PAGES_COUNT * 0x1000) s.memory := by
  have hstart : Filled tables s.memory 0 { s with eax := 0, ebx := 0 } := ⟨rfl, rfl⟩
  obtain ⟨s', hloop, hfilled⟩ := loop_run (Filled tables s.memory)
    (show PAGES_COUNT * 0x1000 < 2147483648 by decide)
    (fun a s' ha heax h => ⟨(fillEntry_eax tables).trans heax, h.entry htables ha heax⟩)
    (show 0 < PAGES_COUNT * 0x1000 by decide) hn rfl hstart
  exact ⟨s', hloop, hfilled.memory⟩

theorem define_memory (tables directory n : Nat) :
    ((List.range n).foldl (fun s i =>
      s.pageDirectoryDefinition (tables + i * 0x1000) directory (i * 4)) s).memory =
      defineEntries tables directory 0 n s.memory := by
  induction n with
  | zero => rfl
  | succ n ih =>
      rw [List.range_succ, List.foldl_append, defineEntries_succ, ← ih, Nat.zero_add]
      rfl

theorem createPageDirectory_memory :
    s.createPageDirectory.memory = Paging.createPageDirectory s.memory := by
  unfold createPageDirectory
  dsimp only
  rw [define_memory, define_memory]
  rfl

/-- The routines come to their end, with memory as `bootMemory` says. -/
theorem bootRoutines_run (s : BootState) {n : Nat} (hn : 0x400000 ≤ n) :
    ∃ s', s.bootRoutines n = some s' ∧ s'.memory = bootMemory s.memory := by
  have hsmall : 24576 ≤ n := Nat.le_trans (by decide) hn
  obtain ⟨s₁, h₁, hmemory₁⟩ : ∃ s₁, s.clearPageDirectory n = some s₁ ∧ _ :=
    clear_run (by decide) (by decide) (Nat.le_trans (by decide) hn)
  obtain ⟨s₂, h₂, hmemory₂⟩ : ∃ s₂, s₁.clearPageTables n = some s₂ ∧ _ :=
    clear_run (by decide) (by decide) hn
  obtain ⟨s₄, h₄, hmemory₄⟩ :
      ∃ s₄, s₂.createPageDirectory.createIdentityPageTable n = some s₄ ∧ _ :=
    fill_run (by decide) hsmall
  obtain ⟨s₅, h₅, hmemory₅⟩ : ∃ s₅, s₄.createKernelPageTable n = some s₅ ∧ _ :=
    fill_run (by decide) hsmall
  refine ⟨s₅, ?_, ?_⟩
  · simp only [bootRoutines, Option.bind_eq_bind, h₁, h₂, h₄, h₅, Option.bind_some]
  · rw [hmemory₅, hmemory₄, createPageDirectory_memory, hmemory₂, hmemory₁]
    rfl

end BootState

/-! ## The translations -/

/-- Where a virtual address leads, and whether it is writable and open to user code. -/
def translation (m : Frames) (vaddr : Nat) : Option (Nat × Bool × Bool) :=
  (walk m (pageOf vaddr)).map fun x =>
    (x.frame * 4096 + vaddr % 4096, x.readWrite, x.userSupervisor)

/-- 24 MiB, from address 0 on or in the kernel's window. -/
def bootTranslation (vaddr : Nat) : Option (Nat × Bool × Bool) :=
  if vaddr < 0x1800000 then some (vaddr, true, false)
  else if 0xC0000000 ≤ vaddr ∧ vaddr < 0xC0000000 + 0x1800000 then
    some (vaddr - 0xC0000000, true, false)
  else none

section Translation

variable (m : Frames)

/-- An entry that the routines write: present, writable and not for user code. -/
theorem entry_fields {frame : Nat} (h : frame < 1048576) :
    present (frame * 4096 + 3) = true ∧ readWrite (frame * 4096 + 3) = true ∧
      userSupervisor (frame * 4096 + 3) = false ∧ baseAddr (frame * 4096 + 3) = frame := by
  refine ⟨?_, ?_, ?_, ?_⟩
  · rw [present_iff]
    omega
  · rw [readWrite_iff]
    omega
  · have hbit : ¬ (frame * 4096 + 3) / 4 % 2 = 1 := by omega
    exact beq_eq_false_iff_ne.mpr hbit
  · rw [baseAddr]
    omega

/-- A walk through two such entries. -/
theorem walk_entries {page : Nat} (table frame : Nat) (htable : table < 1048576)
    (hframe : frame < 1048576)
    (hpde : m directoryFrame (slotOf page) = table * 4096 + 3)
    (hpte : m table (indexOf page) = frame * 4096 + 3) :
    walk m page = some ⟨frame, true, false⟩ := by
  obtain ⟨hpresent, hwrite, huser, hbase⟩ := entry_fields htable
  obtain ⟨hpresent', hwrite', huser', hbase'⟩ := entry_fields hframe
  rw [← hpde] at hpresent hwrite huser hbase
  rw [walk_of_present hpresent hbase hpte hpresent', hwrite, hwrite', huser, huser', hbase']
  rfl

theorem bootMemory_translation {vaddr : Nat} (h : vaddr < 4294967296) :
    translation (bootMemory m) vaddr = bootTranslation vaddr := by
  have hslot : slotOf (pageOf vaddr) = vaddr / 4194304 := by
    unfold slotOf pageOf
    omega
  have hindex : indexOf (pageOf vaddr) = vaddr / 4096 % 1024 := rfl
  have hlt : vaddr / 4194304 < 1024 := by omega
  have hpde := bootMemory_apply m directoryFrame (vaddr / 4194304) hlt
  rw [if_pos (show directoryFrame = 6 from rfl)] at hpde
  unfold translation bootTranslation
  by_cases hlow : vaddr < 0x1800000
  · have hwalk : walk (bootMemory m) (pageOf vaddr) = some ⟨vaddr / 4096, true, false⟩ := by
      apply walk_entries _ (0x1100 + vaddr / 4194304) _ (by omega) (by omega)
      · rw [hslot, hpde, if_pos (by omega)]
      · rw [hindex, bootMemory_apply _ _ _ (Nat.mod_lt _ (by decide)), if_neg (by omega),
          if_pos (by omega)]
        omega
    rw [hwalk, if_pos hlow, Option.map_some, Nat.div_add_mod']
  · rw [if_neg hlow]
    by_cases hwindow : 0xC0000000 ≤ vaddr ∧ vaddr < 0xC0000000 + 0x1800000
    · have hwalk : walk (bootMemory m) (pageOf vaddr) =
          some ⟨(vaddr - 0xC0000000) / 4096, true, false⟩ := by
        apply walk_entries _ (0x1400 + (vaddr / 4194304 - 768)) _ (by omega) (by omega)
        · rw [hslot, hpde, if_neg (by omega), if_pos (by omega)]
        · rw [hindex, bootMemory_apply _ _ _ (Nat.mod_lt _ (by decide)), if_neg (by omega),
            if_neg (by omega), if_pos (by omega)]
          omega
      have haddr : (vaddr - 0xC0000000) / 4096 * 4096 + vaddr % 4096 = vaddr - 0xC0000000 := by
        omega
      rw [hwalk, if_pos hwindow, Option.map_some, haddr]
    · have habsent : present (bootMemory m directoryFrame (slotOf (pageOf vaddr))) = false := by
        rw [hslot, hpde, if_neg (by omega), if_neg (by omega)]
        rfl
      rw [walk_eq_none_of_absent habsent, if_neg hwindow, Option.map_none]

end Translation

/-- Whatever memory holds, the routines come to their end; the processor then translates the first
24 MiB to themselves and the kernel's window to them, writable and for the supervisor only, and
nothing else; and no byte outside the directory and the 4 MiB of tables has changed. -/
theorem boot_page_tables_translate (s : BootState) {n : Nat} (hn : 0x400000 ≤ n) :
    ∃ s', s.bootRoutines n = some s' ∧
      (∀ vaddr < 4294967296, translation s'.memory vaddr = bootTranslation vaddr) ∧
      ∀ a < 4294967296, ¬ (0x6000 ≤ a ∧ a < 0x6000 + 0x1000) →
        ¬ (0x1100000 ≤ a ∧ a < 0x1100000 + 0x400000) →
          s'.memory (pageOf a) (wordOf a) = s.memory (pageOf a) (wordOf a) := by
  obtain ⟨s', hrun, hmemory⟩ := BootState.bootRoutines_run s hn
  refine ⟨s', hrun, ?_, ?_⟩
  · intro vaddr hvaddr
    rw [hmemory]
    exact bootMemory_translation s.memory hvaddr
  · intro a _ hdirectory htables
    have hword : wordOf a < 1024 := by
      unfold wordOf
      omega
    rw [hmemory, bootMemory_apply _ _ _ hword]
    unfold pageOf
    rw [if_neg (by omega), if_neg (by omega), if_neg (by omega), if_neg (by omega)]

/-- The routines over cleared memory. -/
theorem boot_page_tables_translate_blank : ∃ s',
    BootState.bootRoutines ⟨0, 0, 0, fun _ _ => 0⟩ 0x400000 = some s' ∧
      translation s'.memory 0xC00B8000 = some (0xB8000, true, false) := by
  obtain ⟨s', hrun, htranslation, _⟩ :=
    boot_page_tables_translate ⟨0, 0, 0, fun _ _ => 0⟩ (Nat.le_refl 0x400000)
  refine ⟨s', hrun, ?_⟩
  rw [htranslation 0xC00B8000 (by decide)]
  rfl

end NickOS3.Paging
