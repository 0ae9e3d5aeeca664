import NickOS3.Interrupt.CoreDump
import NickOS3.Interrupt.ExceptionFrame

/-!
# From the exception to the screen

`idt_exc`, `idt_exc_wrapper` and `default_exception_handler` together: the screen shows the
processor as it was when the exception was raised.
-/

namespace NickOS3.Interrupt

open Lib Thread

/-- What `state_dump` prints about an exception that `c` raises. -/
def faultLines (sys : SystemRegisters) (code : Option Nat) (number : Nat) (c : Cpu) :
    List (List UInt8) :=
  [literal "---CORE DUMP---",
    literal "IDTR:" ++ numeral (sys.idtr % 4294967296) BASE_HEX,
    literal "GDTR:" ++ numeral (sys.gdtr % 4294967296) BASE_HEX,
    literal "GS:" ++ numeral (sys.value .gs) BASE_HEX,
    literal "FS:" ++ numeral (sys.value .fs) BASE_HEX,
    literal "ES:" ++ numeral (sys.value .es) BASE_HEX,
    literal "CR4:" ++ numeral (sys.value .cr4) BASE_BIN,
    literal "CR3:" ++ numeral (sys.value .cr3) BASE_HEX,
    literal "CR2:" ++ numeral (sys.value .cr2) BASE_HEX,
    literal "CR0:" ++ numeral (sys.value .cr0) BASE_BIN,
    literal "DS:" ++ numeral (sys.value .ds) BASE_HEX,
    literal "INT_NUM:" ++ numeral number BASE_DEC,
    literal "ERROR_CODE:" ++ numeral (code.getD 0) BASE_BIN,
    literal "EIP:" ++ numeral c.eip BASE_HEX,
    literal "CS:" ++ numeral c.cs BASE_HEX,
    literal "EFLAGS:" ++ numeral c.eflags BASE_HEX,
    literal "IGNORE ESP/SS if in kernel mode",
    -- the processor has pushed neither, and these are the words on top of the stack of `c`
    literal "ESP:" ++ numeral (c.memory.word (c.regs .esp)) BASE_HEX,
    literal "SS:" ++ numeral (c.memory.word (c.regs .esp + 4)) BASE_HEX]

/-- The table stays where memory does not change. -/
theorem TableAt.of_memory {exceptions : Nat} {s s' : Console} (h : TableAt exceptions s)
    (hkeeps : ∀ x, exceptions ≤ x → x < exceptions + 33 * 32 → s'.memory x = s.memory x) :
    TableAt exceptions s' := by
  intro n name hname
  have hmessage := h n name hname
  have hn : n < 32 := (List.getElem?_eq_some_iff.mp hname).1
  have hlengths : ∀ name ∈ exceptionNames, name.length < 33 := by decide
  have hlength := hlengths name (List.mem_of_getElem? hname)
  refine ⟨fun i c hchar => ?_, ?_, hmessage.noNul, hmessage.offScreen⟩
  · have hi : i < name.length := (List.getElem?_eq_some_iff.mp hchar).1
    exact (hkeeps _ (by omega) (by omega)).trans (hmessage.chars i c hchar)
  · exact (hkeeps _ (by omega) (by omega)).trans hmessage.nul

/-- The numeral of `IDTR` or `GDTR` shows the lower 32 of the 48 bits. -/
theorem word_of_bytes {m : Bytes} {a table : Nat} (h : ∀ i < 6, m (a + i) = byteOf table i) :
    m.word a = table % 4294967296 := by
  have hbyte : ∀ i < 4, (m (a + i)).toNat = table / 256 ^ i % 256 := by
    intro i hi
    rw [h i (by omega), byteOf, UInt8.toNat_ofNat']
  have h₀ := hbyte 0 (by decide)
  have h₁ := hbyte 1 (by decide)
  have h₂ := hbyte 2 (by decide)
  have h₃ := hbyte 3 (by decide)
  rw [Nat.add_zero, Nat.pow_zero, Nat.div_one] at h₀
  unfold Bytes.word
  omega

section Fault

variable {c : Cpu} {sys : SystemRegisters} {image : Nat → UInt8} {code : Option Nat}
  {number back exceptions str : Nat}

/-- The lines of `state_dump`, with the state that `idt_exc_wrapper` has saved. -/
theorem dumpLines_shown {m : Bytes} {state : Nat} (hsaved : SavedState sys image c m state)
    (hnumber : m.word (state + 188) = number) (hframe : FrameSaved m state code c)
    (htop : state + 208 = c.regs .esp)
    (habove : ∀ x, c.regs .esp ≤ x → m x = c.memory x) :
    dumpLines.map (·.shown m state) = faultLines sys code number c := by
  obtain ⟨hgs, hfs, hes, hcr4, hcr3, hcr2, hcr0, hds, -⟩ := hsaved.system
  obtain ⟨hcode, heip, hcs, heflags, -⟩ := hframe
  have hesp : m.word (state + 208) = c.memory.word (c.regs .esp) := by
    rw [htop]
    exact word_congr fun x hx _ => habove x hx
  have hss : m.word (state + 212) = c.memory.word (c.regs .esp + 4) := by
    rw [show state + 212 = c.regs .esp + 4 by omega]
    exact word_congr fun x hx _ => habove x (by omega)
  simp only [Nat.add_assoc, Nat.reduceAdd] at hgs hfs hes hcr4 hcr3 hcr2 hcr0 hds
  simp only [Nat.add_assoc, Nat.reduceAdd] at hcode heip hcs heflags
  simp only [dumpLines, List.map_cons, List.map_nil, DumpLine.shown, Nat.add_zero,
    word_of_bytes hsaved.idtr, word_of_bytes hsaved.gdtr, hgs, hfs, hes, hcr4, hcr3, hcr2, hcr0,
    hds, hnumber, hcode, heip, hcs, heflags, hesp, hss, faultLines]

/-- Whatever has been on the screen: while the console is mapped, an exception for which the
processor pushes an error code where `idt_exc` expects one leaves a blue screen with the name of
the exception, the registers of the processor and where it was. -/
theorem fault_screen (sys : SystemRegisters) (image : Nat → UInt8) (handler : Nat) (hc : c.Bounded)
    (hcode : ∀ e ∈ code, e < 4294967296) (hback : back < 4294967296)
    (hroom : 220 ≤ c.regs .esp) (hcs : c.cs ≠ 0)
    (hmatch : code.isSome = true ↔ number ∈ withErrorCode) {name : List UInt8}
    (hname : exceptionNames[number]? = some name) (s : Console) (hmemory : s.memory = c.memory)
    (htable : TableAt exceptions s)
    (hapart : exceptions + 33 * 32 ≤ c.regs .esp - 216 ∨ c.regs .esp ≤ exceptions)
    (hplaces : DumpPlaces str (c.regs .esp - 208)) :
    let c' := sys.raise code number image handler back c
    let entered : Console := { s with memory := c'.memory }
    ∃ s' t', (∀ rounds, 34 < rounds → defaultExceptionHandler rounds exceptions str
        (c'.memory.word (c'.regs .esp + 4)) entered = some s') ∧ s'.Shows t' ∧
      Listing panicTerminal ((panicLines name ++ faultLines sys code number c).map white) t' ∧
      KeepsBut str entered s' := by
  have hnumber : number < 32 := (List.getElem?_eq_some_iff.mp hname).1
  obtain ⟨-, hraised, hrest⟩ := raise_run sys image handler hc hcode
    (show number < 4294967296 by omega) hback hroom
  generalize sys.raise code number image handler back c = d at hraised hrest ⊢
  obtain ⟨b, hb⟩ : ∃ b, d.regs .esp = b := ⟨_, rfl⟩
  rw [hb] at hraised hrest
  intro c' entered
  have htop : b + 196 + 4 * 5 = c.regs .esp :=
    (length_frameWords code number c).mpr hmatch ▸ hraised.top
  have hargument : d.memory.word (b + 4) = b + 8 := hraised.call.2.1
  have hstate : c.regs .esp - 208 = b + 8 := by omega
  rw [hstate] at hplaces
  have hentered : TableAt exceptions entered := by
    refine htable.of_memory fun x hlow hhigh => ?_
    rw [hmemory]
    exact hrest x (by omega)
  have hdescription : exceptionNames[entered.memory.word (b + 8 + 188)]? = some name := by
    have hword : entered.memory.word (b + 8 + 188) = number := hraised.frame.1
    rw [hword]
    exact hname
  obtain ⟨s', t', hrun, hshows, hlisting, hkeeps⟩ :=
    defaultExceptionHandler_run entered hentered hplaces hdescription
  rw [show c'.regs .esp = b from hb, hargument]
  refine ⟨s', t', hrun, hshows, ?_, hkeeps⟩
  have hlines : dumpLines.map (·.shown c'.memory (b + 8)) = faultLines sys code number c :=
    dumpLines_shown hraised.saved hraised.frame.1
      ((frameSaved_iff hcs hraised.frame).mpr hmatch) (by omega) fun x hx => hrest x (.inr hx)
  rw [← hlines]
  exact hlisting

end Fault

/-- A page fault, with the table at address 0 and the stack behind it. -/
theorem fault_screen_page_fault :
    let c : Cpu := { faulting with memory := exceptionTable }
    let c' := zeroRegisters.raise (some 2) 14 (fun _ => 0) 0 0 c
    let entered : Console := { divideError with memory := c'.memory }
    ∃ s' t', (∀ rounds, 34 < rounds → defaultExceptionHandler rounds 0 2048
        (c'.memory.word (c'.regs .esp + 4)) entered = some s') ∧ s'.Shows t' ∧
      Listing panicTerminal ((panicLines (literal "Page Fault") ++
        faultLines zeroRegisters (some 2) 14 c).map white) t' ∧ KeepsBut 2048 entered s' := by
  intro c
  have hbounded : c.Bounded := ⟨faulting_bounded.regs, by decide, by decide, by decide⟩
  refine fault_screen zeroRegisters (fun _ => 0) 0 hbounded (by simp) (by decide) (by decide)
    (by decide) (by decide) rfl divideError rfl divideError_table (.inl (by decide)) ?_
  have hstate : c.regs .esp - 208 = 7984 := by decide
  rw [hstate]
  exact ⟨fun i _ => Or.inl (show 2048 + i < 753664 by omega),
    fun i _ => Or.inl (show 7984 + i < 753664 by omega), Or.inl (by decide)⟩

end NickOS3.Interrupt
