import NickOS3.Lib.Blocks
import NickOS3.Thread.Instructions

/-!
# Stack frames

`thread_create` builds stack frames that `context_switch`, `first_switch` and `run` take apart, and
`idt_int_wrapper` builds one that it takes apart itself. What each routine does with the registers
and the stack, with the thread that runs in each state it goes through.
-/

namespace NickOS3.Thread

open Lib

/-! ## The routines -/

/-- Where the linker puts the routines, and where the calls of them in assembly return to. -/
structure Code where
  contextSwitch : Nat
  firstSwitch : Nat
  run : Nat
  switchComplete : Nat
  afterComplete : Nat
  handler : Nat
  afterHandler : Nat
  lt : ∀ label ∈ [contextSwitch, firstSwitch, run, switchComplete, afterComplete, handler,
    afterHandler], label < 4294967296

/-- `context_switch`, up to where it has read `next`. -/
def saveRoutine : List Instruction :=
  [.push .ebp, .push .ebx, .push .esi, .push .edi, .move .edx 0, .load .eax ⟨.esp, none, 20⟩,
    .store ⟨.eax, some .edx, 0⟩ .esp, .load .ecx ⟨.esp, none, 24⟩]

/-- `context_switch`, from where it loads the stack pointer of `next`. -/
def restoreRoutine : List Instruction :=
  [.load .esp ⟨.ecx, some .edx, 0⟩, .pop .edi, .pop .esi, .pop .ebx, .pop .ebp, .ret]

/-- The end of `switch_complete` and the rest of `first_switch`. -/
def completeRoutine : List Instruction := [.ret, .add .esp 4, .ret]

/-- The end of `idt_global_int_wrapper` and the rest of `idt_int_wrapper`. -/
def handledRoutine : List Instruction :=
  [.ret, .pop .esp, .popa, .frstor, .fwait, .add .esp 108, .add .esp 4, .iret]

namespace Code

variable (code : Code)

/-- `first_switch`, up to its call. -/
def firstRoutine : List Instruction :=
  [.add .esp 8, .push .eax, .call code.switchComplete code.afterComplete]

/-- `idt_int` with a number and behind it `idt_int_wrapper`, up to its call. -/
def interruptRoutine (number : Nat) (image : Nat → UInt8) : List Instruction :=
  [.cli, .pushValue number, .sub .esp 108, .fnsave image, .fwait, .pusha, .push .esp,
    .call code.handler code.afterHandler]

end Code

/-- What the processor pushes when it takes an interrupt in the kernel. -/
def Cpu.accept (c : Cpu) : Cpu := ((c.push c.eflags).push c.cs).push c.eip

/-! ## `thread_create` -/

def T_MAGIC : Nat := 0x69696969

/-- `push_stack`, none when it PANICs. In a `thread`, `stack` is at offset 0 and `magic` at 40. -/
def pushStack (t size : Nat) (m : Bytes) : Option Bytes :=
  if m.word (t + 40) = T_MAGIC then some (storeWord t (u32 (m.word t + 4294967296 - size)) m)
  else none

/-- The first half of `thread_create`: `palloc_kern` clears the page that it has given, and the
thread structure at its bottom is filled in. -/
def initThread (new id pageDirectory pool : Nat) (m : Bytes) : Bytes :=
  let m := Lib.memset new 0 PGSIZE m
  -- id, magic, page_directory, pool, priority, stack and status, in this order
  let m := storeWord (new + 4) id m
  let m := storeWord (new + 40) T_MAGIC m
  let m := storeWord (new + 28) pageDirectory m
  let m := storeWord (new + 32) pool m
  let m := storeWord (new + 36) 1 m
  let m := storeWord new (u32 (new + PGSIZE)) m
  storeWord (new + 24) 2 m

/-- The second half: the stack frames of `run`, `first_switch` and `context_switch`. -/
def Code.buildStack (code : Code) (new function aux : Nat) (m : Bytes) : Option Bytes := do
  let m ← pushStack new 12 m
  let runStack := m.word new
  let m := storeWord runStack 0 m
  let m := storeWord (runStack + 4) function m
  let m := storeWord (runStack + 8) aux m
  let m ← pushStack new 4 m
  let switchStack := m.word new
  let m := storeWord switchStack code.run m
  let m ← pushStack new 28 m
  let contextStack := m.word new
  let m := storeWord (contextStack + 16) code.firstSwitch m
  some (storeWord (contextStack + 8) 0 m)

/-- `thread_create` up to where it enters the thread in the lists, none when it PANICs. -/
def Code.threadCreate (code : Code) (new id pageDirectory pool function aux : Nat) (m : Bytes) :
    Option Bytes :=
  code.buildStack new function aux (initThread new id pageDirectory pool m)

/-- `current_thread` with a stack pointer, none when it PANICs. -/
def currentThread (m : Bytes) (esp : Nat) : Option Nat :=
  let base := esp - esp % PGSIZE
  if m.word (base + 40) = T_MAGIC then some base else none

section Create

variable {code : Code} {new id pageDirectory pool function aux : Nat} {m : Bytes}

theorem pushStack_some (top : Nat) {t size : Nat} (hmagic : m.word (t + 40) = T_MAGIC)
    (htop : u32 (m.word t + 4294967296 - size) = top) :
    pushStack t size m = some (storeWord t top m) := by
  rw [pushStack, if_pos hmagic, htop]

/-- The words that `memset` has cleared. -/
theorem word_cleared {x : Nat} (hfit : new + 4096 ≤ 4294967296) (hlow : new ≤ x)
    (hhigh : x + 4 ≤ new + 4096) : (Lib.memset new 0 PGSIZE m).word x = 0 := by
  have hbyte : ∀ y, x ≤ y → y < x + 4 → Lib.memset new 0 PGSIZE m y = 0 := by
    intro y hx hy
    have hoffset : Lib.offset new y < 4 * PGSIZE := by
      unfold Lib.offset u32 PGSIZE
      omega
    rw [Lib.memset_apply, if_pos ⟨by omega, hoffset⟩, byteOf, Nat.zero_div]
    rfl
  unfold Bytes.word
  rw [hbyte x (by omega) (by omega), hbyte (x + 1) (by omega) (by omega),
    hbyte (x + 2) (by omega) (by omega), hbyte (x + 3) (by omega) (by omega)]
  rfl

theorem initThread_word (id pageDirectory pool : Nat) (m : Bytes) (hfit : new + 4096 ≤ 4294967296) :
    (initThread new id pageDirectory pool m).word new = u32 (new + PGSIZE) ∧
      (initThread new id pageDirectory pool m).word (new + 40) = T_MAGIC ∧
      ∀ x, new + 44 ≤ x → x + 4 ≤ new + 4096 →
        (initThread new id pageDirectory pool m).word x = 0 := by
  have htop : u32 (new + PGSIZE) < 4294967296 := u32_lt _
  have hmagic : T_MAGIC < 4294967296 := by decide
  unfold initThread
  refine ⟨?_, ?_, fun x hlow hhigh => ?_⟩
  · simp (disch := omega) only [word_storeWord_ne, word_storeWord]
  · simp (disch := omega) only [word_storeWord_ne, word_storeWord]
  · simp (disch := omega) only [word_storeWord_ne]
    exact word_cleared hfit (by omega) hhigh

/-- Clearing the page clears four pages. -/
theorem initThread_outside {x : Nat} (hfit : new + 4096 ≤ 4294967296) (_ : x < 4294967296)
    (hout : ¬ Lib.offset new x < 4 * PGSIZE) : initThread new id pageDirectory pool m x = m x := by
  have hbehind : x < new ∨ new + 44 ≤ x := by
    unfold Lib.offset u32 PGSIZE at hout
    omega
  unfold initThread
  simp (disch := omega) only [storeWord_of_outside]
  rw [Lib.memset_apply, if_neg fun hboth => hout hboth.2]

/-- The frames of a stack that is empty before. -/
theorem buildStack_run (code : Code) (hfit : new + 4096 ≤ 4294967296)
    (hfunction : function < 4294967296) (haux : aux < 4294967296)
    (hword : m.word new = u32 (new + PGSIZE))
    (hmagic : m.word (new + 40) = T_MAGIC)
    (hzero : ∀ x, new + 44 ≤ x → x + 4 ≤ new + 4096 → m.word x = 0) :
    ∃ m', code.buildStack new function aux m = some m' ∧
      m'.Words (new + 4052)
        [0, 0, 0, 0, code.firstSwitch, 0, 0, code.run, 0, function, aux] ∧
      m'.word new = new + 4052 ∧ m'.word (new + 40) = T_MAGIC ∧
      ∀ x, x < new ∨ new + 4096 ≤ x → m' x = m x := by
  have hrun : code.run < 4294967296 := code.lt _ (by simp)
  have hfirst : code.firstSwitch < 4294967296 := code.lt _ (by simp)
  have htop : u32 (m.word new + 4294967296 - 12) = new + 4084 := by
    rw [hword]
    unfold u32 PGSIZE
    omega
  have hdown : ∀ x k, k ≤ x → x < 4294967296 → u32 (x + 4294967296 - k) = x - k := by
    intro x k hk hx
    unfold u32
    omega
  unfold Code.buildStack
  rw [pushStack_some _ hmagic htop]
  simp (disch := omega) only [Option.bind_eq_bind, Option.bind_some, word_storeWord]
  rw [pushStack_some (new + 4080)]
  rotate_left
  · simp (disch := omega) only [word_storeWord_ne]
    exact hmagic
  · simp (disch := omega) only [word_storeWord_ne, word_storeWord, hdown]
    omega
  simp (disch := omega) only [Option.bind_some, word_storeWord]
  rw [pushStack_some (new + 4052)]
  rotate_left
  · simp (disch := omega) only [word_storeWord_ne]
    exact hmagic
  · simp (disch := omega) only [word_storeWord_ne, word_storeWord, hdown]
    omega
  simp (disch := omega) only [Option.bind_some, word_storeWord]
  refine ⟨_, rfl, ?_, ?_, ?_, ?_⟩
  · simp (disch := omega) only [Bytes.Words, Nat.add_assoc, Nat.reduceAdd, word_storeWord_ne,
      word_storeWord, hzero, and_self]
  · simp (disch := omega) only [word_storeWord_ne, word_storeWord]
  · simp (disch := omega) only [word_storeWord_ne]
    exact hmagic
  · intro x hx
    simp (disch := omega) only [storeWord_of_outside]

/-- `thread_create` builds the frames, and leaves alone what is not cleared. -/
theorem threadCreate_run (code : Code) (new id pageDirectory pool function aux : Nat) (m : Bytes)
    (hfit : new + 4096 ≤ 4294967296) (hfunction : function < 4294967296)
    (haux : aux < 4294967296) :
    ∃ m', code.threadCreate new id pageDirectory pool function aux m = some m' ∧
      m'.Words (new + 4052)
        [0, 0, 0, 0, code.firstSwitch, 0, 0, code.run, 0, function, aux] ∧
      m'.word new = new + 4052 ∧ m'.word (new + 40) = T_MAGIC ∧
      ∀ x < 4294967296, ¬ Lib.offset new x < 4 * PGSIZE → m' x = m x := by
  obtain ⟨hword, hmagic, hzero⟩ := initThread_word id pageDirectory pool m hfit
  obtain ⟨m', hbuild, hwords, htop, hmagic', hrest⟩ :=
    buildStack_run code hfit hfunction haux hword hmagic hzero
  refine ⟨m', hbuild, hwords, htop, hmagic', fun x hx hout => ?_⟩
  have hbehind : x < new ∨ new + 4096 ≤ x := by
    unfold Lib.offset u32 PGSIZE at hout
    omega
  rw [hrest x hbehind, initThread_outside hfit hx hout]

end Create

/-! ## What the routines do -/

section Routines

variable {c c' : Cpu} {ws : List Nat} {t cur next back target : Nat}

/-- The thread `t` runs: `current_thread` returns it. -/
def Cpu.Runs (c : Cpu) (t : Nat) : Prop := currentThread c.memory (c.regs .esp) = some t

/-- `esp` is in the page of `t`, and the thread structure is as it should be. -/
theorem Cpu.runs_of (hpage : t % PGSIZE = 0) (hlow : t ≤ c.regs .esp)
    (hhigh : c.regs .esp < t + 4096) (hmagic : c.memory.word (t + 40) = T_MAGIC) : c.Runs t := by
  have hbase : c.regs .esp - c.regs .esp % PGSIZE = t := by
    unfold PGSIZE at *
    omega
  unfold Cpu.Runs currentThread
  dsimp only
  rw [hbase, if_pos hmagic]

theorem Pushed.runs (h : Pushed c ws c') (hpage : t % PGSIZE = 0)
    (hlow : t + 44 + 4 * ws.length ≤ c.regs .esp) (hhigh : c.regs .esp < t + 4096)
    (hmagic : c.memory.word (t + 40) = T_MAGIC) : c'.Runs t := by
  have hesp := h.esp
  refine Cpu.runs_of hpage (by omega) (by omega) ?_
  rw [← hmagic]
  exact word_congr fun x hx hx' => h.rest x (.inl (by omega))

/-- `context_switch` between its pushes and where it loads the stack pointer of the next thread. -/
def storeRoutine : List Instruction :=
  [.move .edx 0, .load .eax ⟨.esp, none, 20⟩, .store ⟨.eax, some .edx, 0⟩ .esp,
    .load .ecx ⟨.esp, none, 24⟩]

theorem saveRoutine_eq :
    saveRoutine =
      [Register.ebp, .ebx, .esi, .edi].map Instruction.push ++ storeRoutine := rfl

theorem restoreRoutine_eq :
    restoreRoutine =
      .load .esp ⟨.ecx, some .edx, 0⟩ :: ([.edi, .esi, .ebx, .ebp].map .pop ++ [.ret]) := rfl

theorem store_run (hesp : c.regs .esp + 24 < 4294967296)
    (hcur : c.memory.word (c.regs .esp + 20) = cur)
    (hnext : c.memory.word (c.regs .esp + 24) = next) (hlow : cur + 4 ≤ c.regs .esp) :
    let c' := c.run storeRoutine
    c'.regs .eax = cur ∧ c'.regs .ecx = next ∧ c'.regs .edx = 0 ∧
      c'.memory = storeWord cur (c.regs .esp) c.memory ∧
      ∀ x ∈ c.trace storeRoutine, x.regs .esp = c.regs .esp ∧
        (x.memory = c.memory ∨ x.memory = storeWord cur (c.regs .esp) c.memory) := by
  have hcurAddress : u32 (c.regs .esp + 0 + 20) = c.regs .esp + 20 := u32_of_lt (by omega)
  have hnextAddress : u32 (c.regs .esp + 0 + 24) = c.regs .esp + 24 := u32_of_lt (by omega)
  have hstackAddress : u32 cur = cur := u32_of_lt (by omega)
  have hnext' : (storeWord cur (c.regs .esp) c.memory).word (c.regs .esp + 24) = next :=
    (word_storeWord_ne (.inr (by omega))).trans hnext
  refine ⟨?_, ?_, ?_, ?_, ?_⟩
  · simp [storeRoutine, Cpu.run, Cpu.exec, Cpu.set, Cpu.address, hcurAddress, hcur]
  · simp [storeRoutine, Cpu.run, Cpu.exec, Cpu.set, Cpu.address, hcurAddress, hcur, hstackAddress,
      hnextAddress, hnext']
  · simp [storeRoutine, Cpu.run, Cpu.exec, Cpu.set, Cpu.address]
  · simp [storeRoutine, Cpu.run, Cpu.exec, Cpu.set, Cpu.address, hcurAddress, hcur, hstackAddress]
  · intro x hx
    simp only [storeRoutine, Cpu.trace, List.mem_cons, List.not_mem_nil, or_false] at hx
    rcases hx with rfl | rfl | rfl | rfl
    all_goals
      simp [Cpu.exec, Cpu.set, Cpu.address, hcurAddress, hcur, hstackAddress]

/-- `call context_switch` and the instructions up to where the stack pointer of the next thread is
loaded: the current thread runs, and its registers and the return address are on its stack. -/
theorem save_run (target back : Nat) (hpage : cur % PGSIZE = 0) (hfit : cur + 4096 ≤ 4294967296)
    (hmagic : c.memory.word (cur + 40) = T_MAGIC) (hregs : ∀ r, c.regs r < 4294967296)
    (hback : back < 4294967296) (hroom : cur + 44 + 20 ≤ c.regs .esp)
    (hargs : c.regs .esp + 8 ≤ cur + 4096) (hcur : c.memory.word (c.regs .esp) = cur)
    (hnext : c.memory.word (c.regs .esp + 4) = next) :
    let c' := c.run (.call target back :: saveRoutine)
    (∀ x ∈ c.trace (.call target back :: saveRoutine), x.Runs cur) ∧
      c'.regs .eax = cur ∧ c'.regs .ecx = next ∧ c'.regs .edx = 0 ∧
      c'.memory.Words (c.regs .esp - 20)
        [c.regs .edi, c.regs .esi, c.regs .ebx, c.regs .ebp, back] ∧
      c'.memory.word cur = c.regs .esp - 20 ∧
      ∀ x, x < cur ∨ cur + 4 ≤ x → x < c.regs .esp - 20 ∨ c.regs .esp ≤ x →
        c'.memory x = c.memory x := by
  intro c'
  have hesp : c.regs .esp < 4294967296 := hregs .esp
  have hcall : Pushed c [back] (c.exec (.call target back)) :=
    (Pushed.refl c).call target (by omega) hesp hback
  have hdown := hcall.esp
  rw [List.length_singleton] at hdown
  obtain ⟨hpushed, hpushing⟩ := hcall.registers [.ebp, .ebx, .esi, .edi] (by decide)
    (by simp only [List.length_cons, List.length_nil]; omega) hregs
  have hrun : c' = ((c.exec (.call target back)).run
      ([.ebp, .ebx, .esi, .edi].map .push)).run storeRoutine := rfl
  generalize hc₅ : (c.exec (.call target back)).run ([.ebp, .ebx, .esi, .edi].map .push) = c₅
    at hpushed hrun
  have hlow := hpushed.esp
  simp only [List.map_cons, List.map_nil, List.reverse_cons, List.reverse_nil, List.nil_append,
    List.cons_append, List.length_cons, List.length_nil] at hlow hpushed
  have hargument : ∀ x, c.regs .esp ≤ x → c₅.memory.word x = c.memory.word x :=
    fun x hx => word_congr fun y hy _ => hpushed.rest y (.inr (by omega))
  have hmagic₅ : c₅.memory.word (cur + 40) = T_MAGIC := by
    rw [← hmagic]
    exact word_congr fun y hy _ => hpushed.rest y (.inl (by omega))
  have hcurAt : c₅.regs .esp + 20 = c.regs .esp := by omega
  have hnextAt : c₅.regs .esp + 24 = c.regs .esp + 4 := by omega
  have hcur₅ : c₅.memory.word (c₅.regs .esp + 20) = cur := by
    rw [hcurAt, hargument _ (by omega), hcur]
  have hnext₅ : c₅.memory.word (c₅.regs .esp + 24) = next := by
    rw [hnextAt, hargument _ (by omega), hnext]
  obtain ⟨heax, hecx, hedx, hmemory, hstoring⟩ :=
    store_run (by omega) hcur₅ hnext₅ (by omega)
  rw [← hrun] at heax hecx hedx hmemory
  have hbottom : c₅.regs .esp = c.regs .esp - 20 := by omega
  refine ⟨?_, heax, hecx, hedx, ?_, ?_, ?_⟩
  · intro x hx
    rw [Cpu.trace, List.mem_cons, saveRoutine_eq, Cpu.mem_trace_append, hc₅] at hx
    rcases hx with rfl | hx | hx
    · exact hcall.runs hpage (by rw [List.length_singleton]; omega) (by omega) hmagic
    · obtain ⟨vs, hvs, hlength⟩ := hpushing x hx
      simp only [List.length_cons, List.length_nil] at hlength
      exact hvs.runs hpage (by omega) (by omega) hmagic
    · obtain ⟨hx, hmem | hmem⟩ := hstoring x hx
      · exact Cpu.runs_of hpage (by omega) (by omega) (hmem ▸ hmagic₅)
      · refine Cpu.runs_of hpage (by omega) (by omega) ?_
        rw [hmem, word_storeWord_ne (.inr (by omega)), hmagic₅]
  · rw [hmemory, ← hbottom]
    exact words_storeWord_ne (.inr (by omega)) hpushed.words
  · rw [hmemory, hbottom]
    exact word_storeWord (by omega)
  · intro x hx hout
    rw [hmemory, storeWord_of_outside hx]
    exact hpushed.rest x (by omega)

/-- `context_switch` from where it loads the stack pointer of the next thread, which runs from then
on: the registers and the return address are taken from its stack. -/
theorem restore_run {e edi esi ebx ebp : Nat} (hecx : c.regs .ecx = next) (hedx : c.regs .edx = 0)
    (hpage : next % PGSIZE = 0) (hfit : next + 4096 ≤ 4294967296)
    (hmagic : c.memory.word (next + 40) = T_MAGIC) (hword : c.memory.word next = e)
    (hlow : next + 44 ≤ e) (hhigh : e + 20 < next + 4096)
    (hwords : c.memory.Words e [edi, esi, ebx, ebp, back]) :
    let c' := c.run restoreRoutine
    (∀ x ∈ c.trace restoreRoutine, x.Runs next) ∧
      c'.eip = back ∧ c'.regs .edi = edi ∧ c'.regs .esi = esi ∧ c'.regs .ebx = ebx ∧
      c'.regs .ebp = ebp ∧ c'.regs .eax = c.regs .eax ∧ c'.regs .esp = e + 20 ∧
      c'.memory = c.memory := by
  intro c'
  have hload : c.exec (.load .esp ⟨.ecx, some .edx, 0⟩) = c.set .esp e := by
    have haddress : u32 (next + 0 + 0) = next := u32_of_lt (by omega)
    simp only [Cpu.exec, Cpu.address, hecx, hedx, Option.elim_some, haddress, hword]
  have hesp : (c.set .esp e).regs .esp = e := c.set_self _ _
  have hwordsTop : (c.set .esp e).memory.Words ((c.set .esp e).regs .esp)
      ([edi, esi, ebx, ebp] ++ [back]) := by
    rw [hesp]
    exact hwords
  have hpopped : Popped (c.set .esp e) [.edi, .esi, .ebx, .ebp] [edi, esi, ebx, ebp]
      ((c.set .esp e).pops [.edi, .esi, .ebx, .ebp]) := by
    refine Cpu.pops_popped [back] (by decide) (by decide) rfl hwordsTop ?_
    rw [hesp]
    simp only [List.length_cons, List.length_nil]
    omega
  have hrun : c' = ((c.set .esp e).pops [.edi, .esi, .ebx, .ebp]).exec .ret := by
    rw [← hload]
    rfl
  generalize hc₄ : (c.set .esp e).pops [.edi, .esi, .ebx, .ebp] = c₄ at hpopped hrun
  have htop := hpopped.esp
  rw [hesp] at htop
  simp only [List.length_cons, List.length_nil] at htop
  have hhead : c₄.head = back := by
    rw [Cpu.head, hpopped.memory, htop]
    exact hwords.2.2.2.2.1
  have hregs : ∀ p ∈ [(Register.edi, edi), (.esi, esi), (.ebx, ebx), (.ebp, ebp)],
      c'.regs p.1 = p.2 := by
    intro p hp
    have hne : p.1 ≠ .esp := by
      simp only [List.mem_cons, List.not_mem_nil, or_false] at hp
      rcases hp with rfl | rfl | rfl | rfl <;> simp
    rw [hrun, Cpu.ret_ne hne]
    exact hpopped.popped p hp
  refine ⟨?_, ?_, hregs (.edi, _) (by simp), hregs (.esi, _) (by simp), hregs (.ebx, _) (by simp),
    hregs (.ebp, _) (by simp), ?_, ?_, ?_⟩
  · intro x hx
    rw [restoreRoutine_eq, Cpu.trace, List.mem_cons, hload, Cpu.mem_trace_append, Cpu.run_pop,
      hc₄] at hx
    rcases hx with rfl | hx | hx
    · exact Cpu.runs_of hpage (by omega) (by omega) hmagic
    · obtain ⟨hmemory, hfrom, hto⟩ := Cpu.mem_trace_pop (by decide)
        (by rw [hesp]; simp only [List.length_cons, List.length_nil]; omega) hx
      rw [hesp] at hfrom hto
      simp only [List.length_cons, List.length_nil] at hto
      exact Cpu.runs_of hpage (by omega) (by omega) (hmemory ▸ hmagic)
    · obtain rfl := List.mem_singleton.mp hx
      refine Cpu.runs_of hpage ?_ ?_ ?_
      · rw [Cpu.ret_esp (by omega)]
        omega
      · rw [Cpu.ret_esp (by omega)]
        omega
      · exact hpopped.memory ▸ hmagic
  · rw [hrun]
    exact hhead
  · rw [hrun, Cpu.ret_ne (r := .eax) (by decide), hpopped.regs .eax (by decide) (by decide),
      Cpu.set_ne (by decide)]
  · rw [hrun, Cpu.ret_esp (by omega)]
    omega
  · rw [hrun]
    exact hpopped.memory

variable {code : Code} {function aux prev : Nat}

/-- `first_switch` up to its call: `switch_complete` is entered with the thread that has been
switched away from. -/
theorem first_run (hpage : t % PGSIZE = 0) (hfit : t + 4096 ≤ 4294967296)
    (hmagic : c.memory.word (t + 40) = T_MAGIC) (hesp : c.regs .esp = t + 4072)
    (heax : c.regs .eax = prev) (hprev : prev < 4294967296)
    (hwords : c.memory.Words (t + 4072) [0, 0, code.run, 0, function, aux]) :
    let c' := c.run code.firstRoutine
    (∀ x ∈ c.trace code.firstRoutine, x.Runs t) ∧
      c'.eip = code.switchComplete ∧ c'.regs .esp = t + 4072 ∧
      c'.memory.Words (t + 4072) [code.afterComplete, prev, code.run, 0, function, aux] ∧
      ∀ x, x < t + 4072 ∨ t + 4080 ≤ x → c'.memory x = c.memory x := by
  intro c'
  have hafter : code.afterComplete < 4294967296 := code.lt _ (by simp)
  have hadd : c.exec (.add .esp 8) = c.set .esp (t + 4080) := by
    rw [Cpu.exec, hesp, u32_of_lt (by omega)]
  have hadded : (c.set .esp (t + 4080)).regs .esp = t + 4080 := c.set_self _ _
  have hpush : Pushed (c.set .esp (t + 4080)) [prev]
      ((c.set .esp (t + 4080)).exec (.push .eax)) := by
    rw [Cpu.exec, Cpu.set_ne (by decide), heax]
    exact (Pushed.refl _).push (by omega) (by omega) hprev
  have hpushed := hpush.esp
  have hcall := hpush.call code.switchComplete
    (by rw [List.length_singleton] at hpushed; omega) (by omega) hafter
  have hcalled := hcall.esp
  simp only [List.length_cons, List.length_nil, hadded] at hpushed hcalled
  have hrun : c' = ((c.set .esp (t + 4080)).exec (.push .eax)).exec
      (.call code.switchComplete code.afterComplete) := by
    rw [← hadd]
    rfl
  have hbottom : c'.regs .esp = t + 4072 := by
    rw [hrun]
    omega
  refine ⟨?_, ?_, hbottom, ?_, ?_⟩
  · intro x hx
    simp only [Code.firstRoutine, Cpu.trace, List.mem_cons, List.not_mem_nil, or_false, hadd] at hx
    rcases hx with rfl | rfl | rfl
    · exact Cpu.runs_of hpage (by omega) (by omega) hmagic
    · exact hpush.runs hpage (by simp only [List.length_singleton]; omega) (by omega) hmagic
    · refine hcall.runs hpage ?_ (by omega) hmagic
      simp only [List.length_cons, List.length_nil]
      omega
  · rw [hrun, Cpu.call_eip]
  · have htop := hcall.words
    rw [← hrun, hbottom] at htop
    have hrest : c'.memory.Words (t + 4080) [code.run, 0, function, aux] := by
      refine words_congr ?_ hwords.2.2
      intro x hx _
      rw [hrun]
      exact hcall.rest x (.inr (by omega))
    exact words_append.mpr ⟨htop, hrest⟩
  · intro x hx
    rw [hrun]
    exact hcall.rest x (by omega)

/-- `switch_complete` returns, and `first_switch` goes on to `run`, with its arguments. -/
theorem complete_run (hpage : t % PGSIZE = 0) (hfit : t + 4096 ≤ 4294967296)
    (hmagic : c.memory.word (t + 40) = T_MAGIC) (hesp : c.regs .esp = t + 4072)
    (hwords : c.memory.Words (t + 4072)
      [code.afterComplete, prev, code.run, 0, function, aux]) :
    let c' := c.run completeRoutine
    (∀ x ∈ c.trace completeRoutine, x.Runs t) ∧
      c'.eip = code.run ∧ c'.regs .esp = t + 4084 ∧ c'.memory = c.memory := by
  intro c'
  have hret : (c.exec .ret).regs .esp = t + 4076 := by
    rw [Cpu.ret_esp (by omega), hesp]
  have hadd : (c.exec .ret).exec (.add .esp 4) = (c.exec .ret).set .esp (t + 4080) := by
    rw [Cpu.exec, hret, u32_of_lt (by omega)]
  have hadded : ((c.exec .ret).set .esp (t + 4080)).regs .esp = t + 4080 := Cpu.set_self _ _ _
  have hrun : c' = ((c.exec .ret).set .esp (t + 4080)).exec .ret := by
    rw [← hadd]
    rfl
  have hbottom : c'.regs .esp = t + 4084 := by
    rw [hrun, Cpu.ret_esp (by omega), hadded]
  refine ⟨?_, ?_, hbottom, ?_⟩
  · intro x hx
    simp only [completeRoutine, Cpu.trace, List.mem_cons, List.not_mem_nil, or_false, hadd,
      ← hrun] at hx
    rcases hx with rfl | rfl | rfl
    · exact Cpu.runs_of hpage (by omega) (by omega) hmagic
    · exact Cpu.runs_of hpage (by omega) (by omega) hmagic
    · refine Cpu.runs_of hpage (by omega) (by omega) ?_
      rw [hrun]
      exact hmagic
  · rw [hrun]
    change Cpu.head _ = _
    rw [Cpu.head, hadded]
    exact hwords.2.2.1
  · rw [hrun]
    rfl

variable {number : Nat} {image : Nat → UInt8}

/-- An interrupt, up to where the registers are saved: the return frame is on the stack. -/
theorem interrupt_enter (image : Nat → UInt8) (hpage : t % PGSIZE = 0)
    (hmagic : c.memory.word (t + 40) = T_MAGIC) (hesp : c.regs .esp < 4294967296)
    (heip : c.eip < 4294967296) (hcs : c.cs < 4294967296) (heflags : c.eflags < 4294967296)
    (hnumber : number < 4294967296) (hroom : t + 44 + 164 ≤ c.regs .esp)
    (hhigh : c.regs .esp < t + 4096) :
    let entry := [.cli, .pushValue number, .sub .esp 108, .fnsave image, .fwait]
    let c' := c.accept.run entry
    (∀ x ∈ c.accept :: c.accept.trace entry, x.Runs t) ∧
      c'.regs .esp + 124 = c.regs .esp ∧ (∀ r ≠ .esp, c'.regs r = c.regs r) ∧
      c'.memory.Words (c'.regs .esp + 108) [number, c.eip, c.cs, c.eflags] ∧
      ∀ x, x < c'.regs .esp ∨ c.regs .esp ≤ x → c'.memory x = c.memory x := by
  intro entry c'
  have haccept : Pushed c [c.eip, c.cs, c.eflags] c.accept := by
    refine (Pushed.refl c).pushes [c.eflags, c.cs, c.eip] ?_ hesp ?_
    · simp only [List.length_cons, List.length_nil]
      omega
    · simp [heflags, hcs, heip]
  have hcli : Pushed c [c.eip, c.cs, c.eflags] (c.accept.exec .cli) := by
    refine haccept.of_eq ?_ ?_
    · rw [Cpu.exec]
    · rw [Cpu.exec]
  have hcliDown := hcli.esp
  simp only [List.length_cons, List.length_nil] at hcliDown
  obtain ⟨c₂, hc₂⟩ : ∃ c₂, (c.accept.exec .cli).exec (.pushValue number) = c₂ := ⟨_, rfl⟩
  have hnumbered : Pushed c [number, c.eip, c.cs, c.eflags] c₂ := by
    rw [← hc₂, Cpu.exec]
    exact hcli.push (by omega) hesp hnumber
  have hbelow := hnumbered.esp
  simp only [List.length_cons, List.length_nil] at hbelow
  obtain ⟨b, hb⟩ : ∃ b, c₂.regs .esp = b + 108 := ⟨c₂.regs .esp - 108, by omega⟩
  have hsub : c₂.exec (.sub .esp 108) = c₂.set .esp b := by
    have haddress : u32 (b + 108 + 4294967296 - 108) = b := by
      unfold u32
      omega
    rw [Cpu.exec, hb, haddress]
  obtain ⟨c₃, hc₃⟩ : ∃ c₃, (c₂.set .esp b).exec (.fnsave image) = c₃ := ⟨_, rfl⟩
  have hrun : c' = c₃ := by
    simp only [c', entry, Cpu.run, List.foldl_cons, List.foldl_nil, hc₂, hsub, hc₃,
      Cpu.exec_fwait]
  have hesp₃ : c₃.regs .esp = b := by
    rw [← hc₃, Cpu.fnsave_regs, Cpu.set_self]
  have hmemory₃ : ∀ x, x < b ∨ b + 108 ≤ x → c₃.memory x = c₂.memory x := by
    intro x hx
    rw [← hc₃, Cpu.fnsave_memory (by rw [Cpu.set_self]; omega)]
    rfl
  have hmagic₂ : c₂.memory.word (t + 40) = T_MAGIC := by
    rw [← hmagic]
    exact word_congr fun x _ _ => hnumbered.rest x (by omega)
  have hmagic₃ : c₃.memory.word (t + 40) = T_MAGIC := by
    rw [← hmagic₂]
    exact word_congr fun x _ _ => hmemory₃ x (by omega)
  refine ⟨?_, ?_, ?_, ?_, ?_⟩
  · intro x hx
    simp only [entry, List.mem_cons, Cpu.trace, hc₂, hsub, hc₃, Cpu.exec_fwait, List.not_mem_nil,
      or_false] at hx
    rcases hx with rfl | rfl | rfl | rfl | rfl | rfl
    · refine haccept.runs hpage ?_ hhigh hmagic
      simp only [List.length_cons, List.length_nil]
      omega
    · refine hcli.runs hpage ?_ hhigh hmagic
      simp only [List.length_cons, List.length_nil]
      omega
    · exact Cpu.runs_of hpage (by omega) (by omega) hmagic₂
    · have hset : (c₂.set .esp b).regs .esp = b := c₂.set_self _ _
      exact Cpu.runs_of hpage (by omega) (by omega) hmagic₂
    · exact Cpu.runs_of hpage (by omega) (by omega) hmagic₃
    · exact Cpu.runs_of hpage (by omega) (by omega) hmagic₃
  · rw [hrun]
    omega
  · intro r hr
    rw [hrun, ← hc₃, Cpu.fnsave_regs, Cpu.set_ne hr, hnumbered.regs r hr]
  · have hwords := hnumbered.words
    rw [hb] at hwords
    rw [hrun, hesp₃]
    exact words_congr (fun x hx _ => hmemory₃ x (.inr hx)) hwords
  · intro x hx
    rw [hrun] at hx ⊢
    rw [hmemory₃ x (by omega)]
    exact hnumbered.rest x (by omega)

/-- The registers are saved and the handler is called. -/
theorem interrupt_call (code : Code) (hpage : t % PGSIZE = 0)
    (hmagic : c.memory.word (t + 40) = T_MAGIC) (hregs : ∀ r, c.regs r < 4294967296)
    (hroom : t + 44 + 40 ≤ c.regs .esp) (hhigh : c.regs .esp < t + 4096) :
    let last := [.pusha, .push .esp, .call code.handler code.afterHandler]
    let c' := c.run last
    (∀ x ∈ c.trace last, x.Runs t) ∧ c'.eip = code.handler ∧
      Pushed c [code.afterHandler, c.regs .esp - 32, c.regs .edi, c.regs .esi, c.regs .ebp,
        c.regs .esp, c.regs .ebx, c.regs .edx, c.regs .ecx, c.regs .eax] c' := by
  intro last c'
  have hesp : c.regs .esp < 4294967296 := hregs .esp
  have hafter : code.afterHandler < 4294967296 := code.lt _ (by simp)
  have hpusha := Cpu.pusha_pushed (c := c) (by omega) hregs
  have hbottom := hpusha.esp
  simp only [List.length_cons, List.length_nil] at hbottom
  have hvalue : (c.exec .pusha).regs .esp = c.regs .esp - 32 := by omega
  have hpush : Pushed c [c.regs .esp - 32, c.regs .edi, c.regs .esi, c.regs .ebp, c.regs .esp,
      c.regs .ebx, c.regs .edx, c.regs .ecx, c.regs .eax]
      ((c.exec .pusha).exec (.push .esp)) := by
    rw [Cpu.exec, hvalue]
    exact hpusha.push (by omega) (by omega) (by omega)
  have hpushed := hpush.esp
  simp only [List.length_cons, List.length_nil] at hpushed
  have hcall := hpush.call code.handler (by omega) (by omega) hafter
  refine ⟨?_, Cpu.call_eip, hcall⟩
  intro x hx
  simp only [last, Cpu.trace, List.mem_cons, List.not_mem_nil, or_false] at hx
  rcases hx with rfl | rfl | rfl
  · refine hpusha.runs hpage ?_ hhigh hmagic
    simp only [List.length_cons, List.length_nil]
    omega
  · refine hpush.runs hpage ?_ hhigh hmagic
    simp only [List.length_cons, List.length_nil]
    omega
  · refine hcall.runs hpage ?_ hhigh hmagic
    simp only [List.length_cons, List.length_nil]
    omega

/-- An interrupt, up to where its handler is entered: the registers and the return frame of the
thread are on its stack. -/
theorem interrupt_run (code : Code) (image : Nat → UInt8) (hpage : t % PGSIZE = 0)
    (hmagic : c.memory.word (t + 40) = T_MAGIC) (hregs : ∀ r, c.regs r < 4294967296)
    (heip : c.eip < 4294967296) (hcs : c.cs < 4294967296) (heflags : c.eflags < 4294967296)
    (hnumber : number < 4294967296) (hroom : t + 44 + 164 ≤ c.regs .esp)
    (hhigh : c.regs .esp < t + 4096) :
    let c' := c.accept.run (code.interruptRoutine number image)
    (∀ x ∈ c.accept :: c.accept.trace (code.interruptRoutine number image), x.Runs t) ∧
      c'.eip = code.handler ∧ c'.regs .esp = c.regs .esp - 164 ∧
      c'.memory.Words (c.regs .esp - 164)
        [code.afterHandler, c.regs .esp - 156, c.regs .edi, c.regs .esi, c.regs .ebp,
          c.regs .esp - 124, c.regs .ebx, c.regs .edx, c.regs .ecx, c.regs .eax] ∧
      c'.memory.Words (c.regs .esp - 16) [number, c.eip, c.cs, c.eflags] ∧
      ∀ x, x < c.regs .esp - 164 ∨ c.regs .esp ≤ x → c'.memory x = c.memory x := by
  intro c'
  obtain ⟨hentering, hdown, hsame, hframe, houtside⟩ :=
    interrupt_enter image hpage hmagic (hregs .esp) heip hcs heflags hnumber hroom hhigh
  have hroutine : code.interruptRoutine number image =
      [.cli, .pushValue number, .sub .esp 108, .fnsave image, .fwait] ++
        [.pusha, .push .esp, .call code.handler code.afterHandler] := rfl
  have hrun := c.accept.run_append [.cli, .pushValue number, .sub .esp 108, .fnsave image, .fwait]
    [.pusha, .push .esp, .call code.handler code.afterHandler]
  rw [← hroutine] at hrun
  obtain ⟨c₃, hc₃⟩ : ∃ c₃, c.accept.run
    [.cli, .pushValue number, .sub .esp 108, .fnsave image, .fwait] = c₃ := ⟨_, rfl⟩
  rw [hc₃] at hrun hdown hsame hframe houtside
  have hregs₃ : ∀ r, c₃.regs r < 4294967296 := by
    intro r
    by_cases hr : r = .esp
    · have hesp := hregs .esp
      rw [hr]
      omega
    · rw [hsame r hr]
      exact hregs r
  have hmagic₃ : c₃.memory.word (t + 40) = T_MAGIC := by
    rw [← hmagic]
    exact word_congr fun x _ _ => houtside x (by omega)
  obtain ⟨hcalling, heip', hpushed⟩ :=
    interrupt_call code hpage hmagic₃ hregs₃ (by omega) (by omega)
  rw [← hrun] at heip' hpushed
  have hbottom : c'.regs .esp + 40 = c₃.regs .esp := hpushed.esp
  have hlow : c'.regs .esp = c.regs .esp - 164 := by omega
  have hkeeps : ∀ x, x < c'.regs .esp ∨ c₃.regs .esp ≤ x → c'.memory x = c₃.memory x := hpushed.rest
  refine ⟨?_, heip', hlow, ?_, ?_, ?_⟩
  · intro x hx
    rw [hroutine, List.mem_cons, Cpu.mem_trace_append, hc₃] at hx
    rcases hx with rfl | hx | hx
    · exact hentering _ List.mem_cons_self
    · exact hentering _ (List.mem_cons_of_mem _ hx)
    · exact hcalling x hx
  · have hwords := hpushed.words
    have h₁₅₆ : c₃.regs .esp - 32 = c.regs .esp - 156 := by omega
    have h₁₂₄ : c₃.regs .esp = c.regs .esp - 124 := by omega
    rw [hlow, h₁₅₆, h₁₂₄, hsame _ (by decide), hsame _ (by decide), hsame _ (by decide),
      hsame _ (by decide), hsame _ (by decide), hsame _ (by decide), hsame _ (by decide)] at hwords
    exact hwords
  · have h₁₆ : c₃.regs .esp + 108 = c.regs .esp - 16 := by omega
    rw [h₁₆] at hframe
    refine words_congr ?_ hframe
    intro x hx _
    exact hkeeps x (.inr (by omega))
  · intro x hx
    rw [hkeeps x (by omega)]
    exact houtside x (by omega)

/-- The handler returns, and `idt_int_wrapper` gives the thread back its registers and its return
frame. -/
theorem handled_run {regs : Registers} {eip cs eflags : Nat} (hpage : t % PGSIZE = 0)
    (hfit : t + 4096 ≤ 4294967296) (hmagic : c.memory.word (t + 40) = T_MAGIC)
    (hroom : t + 44 + 164 ≤ regs .esp) (hhigh : regs .esp < t + 4096)
    (hesp : c.regs .esp = regs .esp - 164)
    (hwords : c.memory.Words (regs .esp - 164)
      [code.afterHandler, regs .esp - 156, regs .edi, regs .esi, regs .ebp, regs .esp - 124,
        regs .ebx, regs .edx, regs .ecx, regs .eax])
    (hframe : c.memory.Words (regs .esp - 16) [number, eip, cs, eflags]) :
    let c' := c.run handledRoutine
    (∀ x ∈ c.trace handledRoutine, x.Runs t) ∧ c'.regs = regs ∧ c'.eip = eip ∧ c'.cs = cs ∧
      c'.eflags = eflags ∧ c'.memory = c.memory := by
  intro c'
  obtain ⟨b, hb⟩ : ∃ b, regs .esp = b + 164 := ⟨regs .esp - 164, by omega⟩
  have h₁₅₆ : regs .esp - 156 = b + 8 := by omega
  have h₁₆ : regs .esp - 16 = b + 148 := by omega
  have h₁₆₄ : regs .esp - 164 = b := by omega
  rw [h₁₆] at hframe
  rw [h₁₆₄, h₁₅₆] at hwords
  rw [h₁₆₄] at hesp
  clear h₁₅₆ h₁₆ h₁₆₄
  have hruns : ∀ k ≤ 164, ∀ x : Cpu, x.regs .esp = b + k → x.memory = c.memory → x.Runs t := by
    intro k hk x hx hmemory
    exact Cpu.runs_of hpage (by omega) (by omega) (hmemory ▸ hmagic)
  obtain ⟨s₁, hs₁⟩ : ∃ s₁, c.exec .ret = s₁ := ⟨_, rfl⟩
  obtain ⟨s₂, hs₂⟩ : ∃ s₂, s₁.exec (.pop .esp) = s₂ := ⟨_, rfl⟩
  obtain ⟨s₃, hs₃⟩ : ∃ s₃, s₂.exec .popa = s₃ := ⟨_, rfl⟩
  have hesp₁ : s₁.regs .esp = b + 4 := by
    rw [← hs₁, Cpu.ret_esp (by omega), hesp]
  have hmemory₁ : s₁.memory = c.memory := by
    rw [← hs₁, Cpu.exec]
    rfl
  have hesp₂ : s₂.regs .esp = b + 8 := by
    rw [← hs₂, Cpu.exec, Cpu.pop_regs, Function.update_self, Cpu.head, hesp₁, hmemory₁]
    exact hwords.2.1
  have hmemory₂ : s₂.memory = c.memory := by
    rw [← hs₂, Cpu.exec, ← hmemory₁]
    rfl
  have hsaved : s₂.memory.Words (s₂.regs .esp) [regs .edi, regs .esi, regs .ebp,
      regs .esp - 124, regs .ebx, regs .edx, regs .ecx, regs .eax] := by
    rw [hesp₂, hmemory₂]
    exact hwords.2.2
  obtain ⟨hesp₃, hregs₃, hmemory₃⟩ := Cpu.popa_run hsaved (by omega)
  rw [hs₃] at hesp₃ hregs₃ hmemory₃
  rw [hesp₂] at hesp₃
  rw [hmemory₂] at hmemory₃
  have hadd : s₃.exec (.add .esp 108) = s₃.set .esp (b + 148) := by
    rw [Cpu.exec, hesp₃, u32_of_lt (by omega)]
  have hset : (s₃.set .esp (b + 148)).regs .esp = b + 148 := s₃.set_self _ _
  have hadd' : (s₃.set .esp (b + 148)).exec (.add .esp 4) =
      (s₃.set .esp (b + 148)).set .esp (b + 152) := by
    rw [Cpu.exec, hset, u32_of_lt (by omega)]
  obtain ⟨s₅, hs₅⟩ : ∃ s₅, (s₃.set .esp (b + 148)).set .esp (b + 152) = s₅ := ⟨_, rfl⟩
  have hesp₅ : s₅.regs .esp = b + 152 := by
    rw [← hs₅, Cpu.set_self]
  have hmemory₅ : s₅.memory = c.memory := by
    rw [← hs₅]
    exact hmemory₃
  have hrun : c' = s₅.exec .iret := by
    simp only [c', handledRoutine, Cpu.run, List.foldl_cons, List.foldl_nil, hs₁, hs₂, hs₃,
      Cpu.exec_frstor, Cpu.exec_fwait, hadd, hadd', hs₅]
  have hframe₅ : s₅.memory.Words (s₅.regs .esp) [eip, cs, eflags] := by
    rw [hesp₅, hmemory₅]
    exact hframe.2
  obtain ⟨heip, hcs, heflags, hesp', hne, hmemory'⟩ := Cpu.iret_run hframe₅ (by omega)
  rw [← hrun] at heip hcs heflags hesp' hne hmemory'
  rw [hesp₅] at hesp'
  refine ⟨?_, ?_, heip, hcs, heflags, hmemory'.trans hmemory₅⟩
  · intro x hx
    simp only [handledRoutine, Cpu.trace, hs₁, hs₂, hs₃, Cpu.exec_frstor, Cpu.exec_fwait, hadd,
      hadd', hs₅, ← hrun, List.mem_cons, List.not_mem_nil, or_false] at hx
    rcases hx with rfl | rfl | rfl | rfl | rfl | rfl | rfl | rfl
    · exact hruns 4 (by decide) _ hesp₁ hmemory₁
    · exact hruns 8 (by decide) _ hesp₂ hmemory₂
    · exact hruns 40 (by decide) _ hesp₃ hmemory₃
    · exact hruns 40 (by decide) _ hesp₃ hmemory₃
    · exact hruns 40 (by decide) _ hesp₃ hmemory₃
    · exact hruns 148 (by decide) _ hset hmemory₃
    · exact hruns 152 (by decide) _ hesp₅ hmemory₅
    · exact hruns 164 (by decide) _ hesp' (hmemory'.trans hmemory₅)
  · funext r
    by_cases hr : r = .esp
    · rw [hr, hesp', hb]
    · rw [hne r hr, ← hs₅, Cpu.set_ne hr, Cpu.set_ne hr, hregs₃ r hr]

end Routines

end NickOS3.Thread
