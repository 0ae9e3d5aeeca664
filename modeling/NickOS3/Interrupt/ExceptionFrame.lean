import NickOS3.Thread.Routines

/-!
# The frame of an exception

`idt_exc` and `idt_exc_wrapper` build an `exception_state` on the stack and take it apart again
when the handler returns. The processor pushes an error code for some exceptions, and `idt_exc`
pushes a zero for those for which it expects none.
-/

namespace NickOS3.Interrupt

open Lib Thread

/-! ## The code -/

/-- The registers that `store_register` saves. -/
inductive SystemRegister
  | ds
  | cr0
  | cr2
  | cr3
  | cr4
  | es
  | fs
  | gs

/-- What the processor has beside the general registers; of `gdtr` and `idtr` the six bytes that
`sgdt` and `sidt` store. -/
structure SystemRegisters where
  value : SystemRegister → Nat
  gdtr : Nat
  idtr : Nat
  lt : ∀ r, value r < 4294967296

/-- An instruction of `idt_exc_wrapper`. -/
inductive WrapperInstruction
  | plain (i : Instruction)
  /-- `mov eax, r` -/
  | read (r : SystemRegister)
  | sgdt
  | sidt

/-- Six bytes at `[esp]`. -/
def storeTable (table : Nat) (c : Cpu) : Cpu :=
  { c with memory := fun x =>
      if c.regs .esp ≤ x ∧ x < c.regs .esp + 6 then byteOf table (x - c.regs .esp)
      else c.memory x }

namespace SystemRegisters

variable (sys : SystemRegisters)

def exec (c : Cpu) : WrapperInstruction → Cpu
  | .plain i => c.exec i
  | .read r => c.set .eax (sys.value r)
  | .sgdt => storeTable sys.gdtr c
  | .sidt => storeTable sys.idtr c

def run (c : Cpu) (routine : List WrapperInstruction) : Cpu := routine.foldl sys.exec c

end SystemRegisters

/-- `store_register` -/
def storeRegister (r : SystemRegister) : List WrapperInstruction := [.read r, .plain (.push .eax)]

/-- The exceptions for which `idt_exc` pushes no zero. -/
def withErrorCode : List Nat := [8, 10, 11, 12, 13, 14, 17, 30]

/-- `idt_exc` -/
def idtExc (number : Nat) : List Instruction :=
  [.cli] ++ (if number ∈ withErrorCode then [] else [.pushValue 0]) ++ [.pushValue number]

def systemRegisters : List SystemRegister := [.ds, .cr0, .cr2, .cr3, .cr4, .es, .fs, .gs]

/-- `idt_exc_wrapper`, up to its call. -/
def excWrapper (image : Nat → UInt8) (handler back : Nat) : List WrapperInstruction :=
  [.plain (.sub .esp 108), .plain (.fnsave image), .plain .fwait, .plain .pusha] ++
    systemRegisters.flatMap storeRegister ++
    [.plain (.sub .esp 8), .sgdt, .plain (.sub .esp 8), .sidt, .plain (.push .esp),
      .plain (.call handler back)]

/-- The end of `idt_global_exc_wrapper` and the rest of `idt_exc_wrapper`. -/
def excReturn : List Instruction :=
  [.ret, .pop .esp, .add .esp 48, .popa, .frstor, .fwait, .add .esp 108, .add .esp 8, .iret]

/-- What the processor pushes when it takes an exception in the kernel, with the error code if there
is one. -/
def take (code : Option Nat) (c : Cpu) : Cpu := code.elim c.accept c.accept.push

/-- An exception, up to where its handler is entered. -/
def SystemRegisters.raise (sys : SystemRegisters) (code : Option Nat) (number : Nat)
    (image : Nat → UInt8) (handler back : Nat) (c : Cpu) : Cpu :=
  sys.run ((take code c).run (idtExc number)) (excWrapper image handler back)

/-! ## Lowering the stack -/

/-- `c'` is behind `c`, with `n` bytes more on its stack. Only `eax` may have another value. -/
structure Lowered (c : Cpu) (n : Nat) (c' : Cpu) : Prop where
  esp : c'.regs .esp + n = c.regs .esp
  regs : ∀ r, r ≠ .esp → r ≠ .eax → c'.regs r = c.regs r
  rest : ∀ x, x < c'.regs .esp ∨ c.regs .esp ≤ x → c'.memory x = c.memory x

section Lowering

variable {c c' c'' : Cpu} {n k a v : Nat} {ws : List Nat} {sys : SystemRegisters}

namespace Lowered

theorem refl (c : Cpu) : Lowered c 0 c := ⟨rfl, fun _ _ _ => rfl, fun _ _ => rfl⟩

theorem trans (h : Lowered c n c') (h' : Lowered c' k c'') : Lowered c (n + k) c'' := by
  have hesp := h.esp
  have hesp' := h'.esp
  refine ⟨by omega, fun r hr hr' => (h'.regs r hr hr').trans (h.regs r hr hr'), fun x hx => ?_⟩
  rw [h'.rest x (by omega), h.rest x (by omega)]

theorem of_pushed (h : Pushed c ws c') : Lowered c (4 * ws.length) c' :=
  ⟨h.esp, fun r hr _ => h.regs r hr, h.rest⟩

/-- What lies above stays. -/
theorem above (h : Lowered c n c') {x : Nat} (hx : c.regs .esp ≤ x) : c'.memory x = c.memory x :=
  h.rest x (.inr hx)

theorem words (h : Lowered c n c') (ha : c.regs .esp ≤ a) (hwords : c.memory.Words a ws) :
    c'.memory.Words a ws :=
  words_congr (fun _ hx _ => h.above (by omega)) hwords

theorem word (h : Lowered c n c') (ha : c.regs .esp ≤ a) : c'.memory.word a = c.memory.word a :=
  word_congr fun _ hx _ => h.above (by omega)

/-- `sub esp, n` -/
theorem sub (hroom : n ≤ c.regs .esp) (hesp : c.regs .esp < 4294967296) :
    Lowered c n (c.exec (.sub .esp n)) := by
  have hdown : u32 (c.regs .esp + 4294967296 - n) = c.regs .esp - n := by
    unfold u32
    omega
  rw [Cpu.exec, hdown]
  refine ⟨?_, fun r hr _ => Cpu.set_ne hr, fun _ _ => rfl⟩
  rw [Cpu.set_self]
  omega

/-- The new bytes are written. -/
theorem fill (h : Lowered c n c') (hregs : c''.regs = c'.regs)
    (hmemory : ∀ x, x < c'.regs .esp ∨ c.regs .esp ≤ x → c''.memory x = c'.memory x) :
    Lowered c n c'' := by
  refine ⟨hregs ▸ h.esp, hregs ▸ h.regs, fun x hx => ?_⟩
  rw [hregs] at hx
  exact (hmemory x hx).trans (h.rest x hx)

end Lowered

/-- `fnsave [esp]`, behind `sub esp, 108` -/
theorem Lowered.fnsave (h : Lowered c 108 c') (image : Nat → UInt8) :
    let d := c'.exec (.fnsave image)
    Lowered c 108 d ∧ ∀ i < 108, d.memory (d.regs .esp + i) = image i := by
  intro d
  have hregs : d.regs = c'.regs := Cpu.fnsave_regs
  have hdown := h.esp
  refine ⟨h.fill hregs fun x hx => Cpu.fnsave_memory (by omega), fun i hi => ?_⟩
  rw [hregs]
  refine (if_pos ⟨Nat.le_add_right _ _, by omega⟩).trans ?_
  rw [Nat.add_sub_cancel_left]

/-- `sgdt [esp]` or `sidt [esp]`, behind `sub esp, 8` -/
theorem Lowered.storeTable (h : Lowered c 8 c') (table : Nat) :
    let d := Interrupt.storeTable table c'
    Lowered c 8 d ∧ ∀ i < 6, d.memory (d.regs .esp + i) = byteOf table i := by
  intro d
  have hregs : d.regs = c'.regs := rfl
  have hdown := h.esp
  refine ⟨h.fill hregs fun x hx => if_neg (by omega), fun i hi => ?_⟩
  rw [hregs]
  refine (if_pos ⟨Nat.le_add_right _ _, by omega⟩).trans ?_
  rw [Nat.add_sub_cancel_left]

/-- `store_register` -/
theorem storeRegister_lowered (sys : SystemRegisters) (r : SystemRegister)
    (hroom : 4 ≤ c.regs .esp) (hesp : c.regs .esp < 4294967296) :
    let c' := sys.run c (storeRegister r)
    Lowered c 4 c' ∧ c'.memory.word (c'.regs .esp) = sys.value r := by
  intro c'
  obtain ⟨d, hd⟩ : ∃ d, c.set .eax (sys.value r) = d := ⟨_, rfl⟩
  have hsame : ∀ q ≠ .eax, d.regs q = c.regs q := fun q hq => hd ▸ Cpu.set_ne hq
  have hstack : d.regs .esp = c.regs .esp := hsame .esp (by decide)
  have heax : d.regs .eax = sys.value r := hd ▸ Cpu.set_self _ _ _
  have hmemory : d.memory = c.memory := hd ▸ rfl
  have hrun : c' = d.push (sys.value r) := by
    simp only [c', storeRegister, SystemRegisters.run, List.foldl_cons, List.foldl_nil,
      SystemRegisters.exec, hd, Cpu.exec, heax]
  have hpush : Pushed d [sys.value r] c' :=
    hrun ▸ (Pushed.refl d).push (by omega) (by omega) (sys.lt r)
  have hdown : c'.regs .esp + 4 = d.regs .esp := hpush.esp
  refine ⟨⟨by omega, fun q hq hq' => ?_, fun x hx => ?_⟩, hpush.words.1⟩
  · exact (hpush.regs q hq).trans (hsame q hq')
  · rw [hpush.rest x (by omega), hmemory]

/-- A row of `store_register`. -/
theorem storeRegisters_lowered (sys : SystemRegisters) (rs : List SystemRegister)
    (hroom : 4 * rs.length ≤ c.regs .esp) (hesp : c.regs .esp < 4294967296) :
    let c' := sys.run c (rs.flatMap storeRegister)
    Lowered c (4 * rs.length) c' ∧
      c'.memory.Words (c'.regs .esp) (rs.map sys.value).reverse := by
  induction rs generalizing c with
  | nil => exact ⟨.refl c, trivial⟩
  | cons r rs ih =>
      rw [List.length_cons] at hroom ⊢
      obtain ⟨hfirst, hword⟩ := storeRegister_lowered sys r (show 4 ≤ c.regs .esp by omega) hesp
      have hdown := hfirst.esp
      obtain ⟨hrest, hwords⟩ := ih (c := sys.run c (storeRegister r)) (by omega) (by omega)
      have hrun : sys.run c ((r :: rs).flatMap storeRegister) =
          sys.run (sys.run c (storeRegister r)) (rs.flatMap storeRegister) := by
        rw [List.flatMap_cons, SystemRegisters.run, List.foldl_append]
        rfl
      rw [hrun]
      constructor
      · have hboth := hfirst.trans hrest
        rw [show 4 + 4 * rs.length = 4 * (rs.length + 1) by omega] at hboth
        exact hboth
      · have hup := hrest.esp
        rw [List.map_cons, List.reverse_cons, words_append, List.length_reverse, List.length_map,
          hup]
        exact ⟨hwords, (hrest.word (Nat.le_refl _)).trans hword, trivial⟩

/-- The part of an `exception_state` that `idt_exc_wrapper` saves for `c`; the field for `esp` holds
what `pusha` has found there, the address of the image of the floating-point unit. -/
structure SavedState (sys : SystemRegisters) (image : Nat → UInt8) (c : Cpu) (m : Bytes)
    (state : Nat) : Prop where
  idtr : ∀ i < 6, m (state + i) = byteOf sys.idtr i
  gdtr : ∀ i < 6, m (state + 8 + i) = byteOf sys.gdtr i
  system : m.Words (state + 16) (systemRegisters.map sys.value).reverse
  registers : m.Words (state + 48) [c.regs .edi, c.regs .esi, c.regs .ebp, state + 80,
    c.regs .ebx, c.regs .edx, c.regs .ecx, c.regs .eax]
  fpu : ∀ i < 108, m (state + 80 + i) = image i

/-- `idt_exc_wrapper`, up to where the handler is entered with the `exception_state`. -/
theorem excWrapper_run (sys : SystemRegisters) (image : Nat → UInt8) (handler : Nat) {back : Nat}
    (hback : back < 4294967296) (hregs : ∀ r, c.regs r < 4294967296)
    (hroom : 196 ≤ c.regs .esp) :
    let c' := sys.run c (excWrapper image handler back)
    c'.eip = handler ∧ Lowered c 196 c' ∧ c'.memory.Words (c'.regs .esp) [back, c'.regs .esp + 8] ∧
      SavedState sys image c c'.memory (c'.regs .esp + 8) := by
  intro c'
  have hesp := hregs .esp
  obtain ⟨d₁, hd₁⟩ : ∃ d, (c.exec (.sub .esp 108)).exec (.fnsave image) = d := ⟨_, rfl⟩
  obtain ⟨d₂, hd₂⟩ : ∃ d, d₁.exec .pusha = d := ⟨_, rfl⟩
  obtain ⟨d₃, hd₃⟩ : ∃ d, sys.run d₂ (systemRegisters.flatMap storeRegister) = d := ⟨_, rfl⟩
  obtain ⟨d₄, hd₄⟩ : ∃ d, storeTable sys.gdtr (d₃.exec (.sub .esp 8)) = d := ⟨_, rfl⟩
  obtain ⟨d₅, hd₅⟩ : ∃ d, storeTable sys.idtr (d₄.exec (.sub .esp 8)) = d := ⟨_, rfl⟩
  have hrun : c' = (d₅.exec (.push .esp)).exec (.call handler back) := by
    rw [← hd₅, ← hd₄, ← hd₃, ← hd₂, ← hd₁]
    simp only [c', excWrapper, SystemRegisters.run, List.foldl_append, List.foldl_cons,
      List.foldl_nil, SystemRegisters.exec, Cpu.exec_fwait]
  -- the parts of the state, from its top down
  obtain ⟨hfpu, himage⟩ := (Lowered.sub (by omega) hesp).fnsave image
  rw [hd₁] at hfpu himage
  have hesp₁ := hfpu.esp
  have hsame : ∀ r ≠ .esp, d₁.regs r = c.regs r := by
    intro r hr
    rw [← hd₁, Cpu.fnsave_regs, Cpu.exec, Cpu.set_ne hr]
  have hregs₁ : ∀ r, d₁.regs r < 4294967296 := by
    intro r
    by_cases hr : r = .esp
    · rw [hr]
      omega
    · exact hsame r hr ▸ hregs r
  have hpusha := Cpu.pusha_pushed (show 32 ≤ d₁.regs .esp by omega) hregs₁
  rw [hd₂] at hpusha
  have hgeneral := Lowered.of_pushed hpusha
  have hesp₂ : d₂.regs .esp + 32 = d₁.regs .esp := hgeneral.esp
  obtain ⟨hsystem, hvalues⟩ := storeRegisters_lowered sys systemRegisters
    (show 4 * 8 ≤ d₂.regs .esp by omega) (show d₂.regs .esp < 4294967296 by omega)
  rw [hd₃] at hsystem hvalues
  have hesp₃ : d₃.regs .esp + 32 = d₂.regs .esp := hsystem.esp
  obtain ⟨hgdtr, hgdtrBytes⟩ := (Lowered.sub (show 8 ≤ d₃.regs .esp by omega)
    (show d₃.regs .esp < 4294967296 by omega)).storeTable sys.gdtr
  rw [hd₄] at hgdtr hgdtrBytes
  have hesp₄ := hgdtr.esp
  obtain ⟨hidtr, hidtrBytes⟩ := (Lowered.sub (show 8 ≤ d₄.regs .esp by omega)
    (show d₄.regs .esp < 4294967296 by omega)).storeTable sys.idtr
  rw [hd₅] at hidtr hidtrBytes
  have hesp₅ := hidtr.esp
  have hargument : Pushed d₅ [d₅.regs .esp] (d₅.exec (.push .esp)) := by
    rw [Cpu.exec]
    exact (Pushed.refl d₅).push (by omega) (by omega) (by omega)
  have hesp₆ : (d₅.exec (.push .esp)).regs .esp + 4 = d₅.regs .esp := hargument.esp
  have hcall := hargument.call handler (by omega) (by omega) hback
  rw [← hrun] at hcall
  have hesp₇ : c'.regs .esp + 8 = d₅.regs .esp := hcall.esp
  have hlast : Lowered d₅ 8 c' := .of_pushed hcall
  have habove₄ := hidtr.trans hlast
  have habove₃ := hgdtr.trans habove₄
  have habove₂ := hsystem.trans habove₃
  have habove₁ := hgeneral.trans habove₂
  have hstate₄ : d₅.regs .esp + 8 = d₄.regs .esp := hesp₅
  have hstate₃ : d₅.regs .esp + 16 = d₃.regs .esp := by omega
  have hstate₂ : d₅.regs .esp + 48 = d₂.regs .esp := by omega
  have hstate₁ : d₅.regs .esp + 80 = d₁.regs .esp := by omega
  have heip : c'.eip = handler := by
    rw [hrun]
    exact Cpu.call_eip
  rw [hesp₇]
  refine ⟨heip, hfpu.trans habove₁, hcall.words, ?_⟩
  constructor
  · intro i hi
    exact (hlast.above (Nat.le_add_right _ _)).trans (hidtrBytes i hi)
  · intro i hi
    rw [hstate₄, habove₄.above (Nat.le_add_right _ _)]
    exact hgdtrBytes i hi
  · rw [hstate₃]
    exact habove₃.words (Nat.le_refl _) hvalues
  · have hwords := habove₂.words (Nat.le_refl _) hpusha.words
    rw [hsame .edi (by decide), hsame .esi (by decide), hsame .ebp (by decide),
      hsame .ebx (by decide), hsame .edx (by decide), hsame .ecx (by decide),
      hsame .eax (by decide)] at hwords
    rw [hstate₂, hstate₁]
    exact hwords
  · intro i hi
    rw [hstate₁, habove₁.above (Nat.le_add_right _ _)]
    exact himage i hi

end Lowering

/-! ## The whole frame -/

section Raise

variable {c : Cpu} {sys : SystemRegisters} {code : Option Nat} {number back : Nat}

/-- What lies on the stack from the number of the exception on. -/
def frameWords (code : Option Nat) (number : Nat) (c : Cpu) : List Nat :=
  number :: ((if number ∈ withErrorCode then [] else [0]) ++ code.toList ++
    [c.eip, c.cs, c.eflags])

theorem take_pushed (hc : c.Bounded) (hcode : ∀ e ∈ code, e < 4294967296)
    (hroom : 16 ≤ c.regs .esp) :
    Pushed c (code.toList ++ [c.eip, c.cs, c.eflags]) (take code c) := by
  have hesp := hc.regs .esp
  have haccept : Pushed c [c.eip, c.cs, c.eflags] c.accept := by
    refine (Pushed.refl c).pushes [c.eflags, c.cs, c.eip] ?_ hesp ?_
    · simp only [List.length_cons, List.length_nil]
      omega
    · simp [hc.eflags, hc.cs, hc.eip]
  have hdown : c.accept.regs .esp + 12 = c.regs .esp := haccept.esp
  cases code with
  | none => exact haccept
  | some e => exact haccept.push (by omega) hesp (hcode e rfl)

theorem idtExc_pushed {d : Cpu} {ws : List Nat} (h : Pushed c ws d)
    (hesp : c.regs .esp < 4294967296) (hroom : 8 ≤ d.regs .esp) (hnumber : number < 4294967296) :
    Pushed c (number :: ((if number ∈ withErrorCode then [] else [0]) ++ ws))
      (d.run (idtExc number)) := by
  obtain ⟨e, he⟩ : ∃ e, d.exec .cli = e := ⟨_, rfl⟩
  have hcli : Pushed c ws e := by
    refine h.of_eq ?_ ?_
    · rw [← he, Cpu.exec]
    · rw [← he, Cpu.exec]
  have hstack : e.regs .esp = d.regs .esp := by
    rw [← he, Cpu.exec]
  by_cases hmem : number ∈ withErrorCode
  · have hrun : d.run (idtExc number) = e.push number := by
      rw [idtExc, if_pos hmem, ← he]
      rfl
    rw [hrun, if_pos hmem]
    exact hcli.push (by omega) hesp hnumber
  · have hrun : d.run (idtExc number) = (e.push 0).push number := by
      rw [idtExc, if_neg hmem, ← he]
      rfl
    have hzero : Pushed c (0 :: ws) (e.push 0) := hcli.push (by omega) hesp (by decide)
    have hdown : (e.push 0).regs .esp + 4 = e.regs .esp := Cpu.push_esp (by omega) (by
      have hup := h.esp
      omega)
    rw [hrun, if_neg hmem]
    exact hzero.push (by omega) hesp hnumber

/-- The stack is lowered to the number of the exception, and the frame lies from there on. -/
theorem frame_pushed (hc : c.Bounded) (hcode : ∀ e ∈ code, e < 4294967296)
    (hnumber : number < 4294967296) (hroom : 24 ≤ c.regs .esp) :
    Pushed c (frameWords code number c) ((take code c).run (idtExc number)) := by
  have htake := take_pushed hc hcode (by omega)
  have hdown := htake.esp
  rw [List.length_append] at hdown
  have hlength : code.toList.length ≤ 1 := by cases code <;> simp
  simp only [List.length_cons, List.length_nil] at hdown
  have hframe := idtExc_pushed htake (hc.regs .esp) (by omega) hnumber
  rw [← List.append_assoc] at hframe
  exact hframe

/-- The fields of an `exception_state` behind the number. -/
def FrameSaved (m : Bytes) (state : Nat) (code : Option Nat) (c : Cpu) : Prop :=
  m.Words (state + 192) [code.getD 0, c.eip, c.cs, c.eflags]

/-- The fields `error_code`, `eip`, `cs` and `eflags` are right if and only if the processor pushes
an error code where `idt_exc` expects one. -/
theorem frameSaved_iff {m : Bytes} {state : Nat} (hcs : c.cs ≠ 0)
    (hframe : m.Words (state + 188) (frameWords code number c)) :
    FrameSaved m state code c ↔ (code.isSome = true ↔ number ∈ withErrorCode) := by
  obtain ⟨-, htail⟩ := hframe
  rw [Nat.add_assoc] at htail
  constructor
  · rintro ⟨hcode, heip, hcs', -⟩
    by_cases hmem : number ∈ withErrorCode
    · rw [if_pos hmem] at htail
      cases code with
      | some e => exact iff_of_true rfl hmem
      | none =>
          -- the fields begin with `eip`, where the code would be
          obtain ⟨heip', hcs'', -⟩ := htail
          exact absurd (hcs''.symm.trans (heip.trans (heip'.symm.trans hcode))) hcs
    · rw [if_neg hmem] at htail
      cases code with
      | none => exact iff_of_false nofun hmem
      | some e =>
          -- the zero is in front of the code
          obtain ⟨hzero, he, heip', -⟩ := htail
          exact absurd (hcs'.symm.trans (heip'.trans (heip.symm.trans
            (he.trans (hcode.symm.trans hzero))))) hcs
  · intro hiff
    by_cases hmem : number ∈ withErrorCode
    · rw [if_pos hmem] at htail
      obtain ⟨e, rfl⟩ := Option.isSome_iff_exists.mp (hiff.mpr hmem)
      exact htail
    · rw [if_neg hmem] at htail
      cases code with
      | none => exact htail
      | some e => exact absurd (hiff.mp rfl) hmem

theorem SavedState.of_regs {image : Nat → UInt8} {d : Cpu} {m : Bytes} {state : Nat}
    (h : SavedState sys image d m state) (hsame : ∀ r ≠ .esp, d.regs r = c.regs r) :
    SavedState sys image c m state := by
  refine ⟨h.idtr, h.gdtr, h.system, ?_, h.fpu⟩
  have hwords := h.registers
  rw [hsame .edi (by decide), hsame .esi (by decide), hsame .ebp (by decide),
    hsame .ebx (by decide), hsame .edx (by decide), hsame .ecx (by decide),
    hsame .eax (by decide)] at hwords
  exact hwords

/-- What lies on the stack where the handler is entered, with the stack pointer at `esp`. -/
structure Raised (sys : SystemRegisters) (image : Nat → UInt8) (code : Option Nat)
    (number back : Nat) (c : Cpu) (esp : Nat) (m : Bytes) : Prop where
  top : esp + 196 + 4 * (frameWords code number c).length = c.regs .esp
  call : m.Words esp [back, esp + 8]
  saved : SavedState sys image c m (esp + 8)
  frame : m.Words (esp + 196) (frameWords code number c)

/-- An exception, up to where its handler is entered. -/
theorem raise_run (sys : SystemRegisters) (image : Nat → UInt8) (handler : Nat) (hc : c.Bounded)
    (hcode : ∀ e ∈ code, e < 4294967296) (hnumber : number < 4294967296)
    (hback : back < 4294967296) (hroom : 220 ≤ c.regs .esp) :
    let c' := sys.raise code number image handler back c
    c'.eip = handler ∧ Raised sys image code number back c (c'.regs .esp) c'.memory ∧
      ∀ x, x < c'.regs .esp ∨ c.regs .esp ≤ x → c'.memory x = c.memory x := by
  intro c'
  have hframe := frame_pushed hc hcode hnumber (by omega)
  obtain ⟨d, hd⟩ : ∃ d, (take code c).run (idtExc number) = d := ⟨_, rfl⟩
  rw [hd] at hframe
  have hdown := hframe.esp
  have hlength : (frameWords code number c).length ≤ 6 := by
    unfold frameWords
    cases code <;> split <;> simp
  have hesp := hc.regs .esp
  have hregs : ∀ r, d.regs r < 4294967296 := by
    intro r
    by_cases hr : r = .esp
    · rw [hr]
      omega
    · exact hframe.regs r hr ▸ hc.regs r
  obtain ⟨heip, hlow, hcall, hsaved⟩ := excWrapper_run sys image handler hback hregs (by omega)
  rw [show sys.run d (excWrapper image handler back) = c' from hd ▸ rfl] at heip hlow hcall hsaved
  have hlowered := hlow.esp
  have hbottom : c'.regs .esp + 196 = d.regs .esp := hlowered
  refine ⟨heip, ⟨by omega, hcall, hsaved.of_regs hframe.regs, ?_⟩, fun x hx => ?_⟩
  · rw [hbottom]
    exact hlow.words (Nat.le_refl _) hframe.words
  · rw [hlow.rest x (by omega), hframe.rest x (by omega)]

/-! ## The way back -/

/-- A handler that leaves the frame as it is. -/
theorem Raised.keep {image : Nat → UInt8} {esp : Nat} {m m' : Bytes}
    (h : Raised sys image code number back c esp m)
    (hkeeps : ∀ x, esp ≤ x → x < c.regs .esp → m' x = m x) :
    Raised sys image code number back c esp m' := by
  have htop := h.top
  have hwords : ∀ {a : Nat} {ws : List Nat}, esp ≤ a → a + 4 * ws.length ≤ c.regs .esp →
      m.Words a ws → m'.Words a ws :=
    fun hlow hhigh => words_congr fun x hx hx' => hkeeps x (by omega) (by omega)
  refine ⟨htop, hwords (Nat.le_refl _) ?_ h.call, ⟨?_, ?_, ?_, ?_, fun i hi => ?_⟩,
    hwords (by omega) (by omega) h.frame⟩
  · simp only [List.length_cons, List.length_nil]
    omega
  · intro i hi
    exact (hkeeps _ (by omega) (by omega)).trans (h.saved.idtr i hi)
  · intro i hi
    exact (hkeeps _ (by omega) (by omega)).trans (h.saved.gdtr i hi)
  · refine hwords (by omega) ?_ h.saved.system
    rw [List.length_reverse, List.length_map, systemRegisters]
    simp only [List.length_cons, List.length_nil]
    omega
  · refine hwords (by omega) ?_ h.saved.registers
    simp only [List.length_cons, List.length_nil]
    omega
  · rw [hkeeps _ (by omega) (by omega)]
    exact h.saved.fpu i hi

/-- The handler returns, and `idt_exc_wrapper` runs up to its `iret`. -/
theorem return_run {image : Nat → UInt8} {d : Cpu}
    (h : Raised sys image code number back c (d.regs .esp) d.memory)
    (hesp : c.regs .esp < 4294967296) :
    ∃ s : Cpu, d.run excReturn = s.exec .iret ∧ s.regs .esp = d.regs .esp + 204 ∧
      (∀ r ≠ .esp, s.regs r = c.regs r) ∧ s.memory = d.memory := by
  have htop := h.top
  have hlength : 4 ≤ (frameWords code number c).length := by
    unfold frameWords
    cases code <;> split <;> simp
  obtain ⟨b, hb⟩ : ∃ b, d.regs .esp = b := ⟨_, rfl⟩
  rw [hb] at h htop ⊢
  obtain ⟨s₁, hs₁⟩ : ∃ s, d.exec .ret = s := ⟨_, rfl⟩
  obtain ⟨s₂, hs₂⟩ : ∃ s, s₁.exec (.pop .esp) = s := ⟨_, rfl⟩
  have hesp₁ : s₁.regs .esp = b + 4 := by
    rw [← hs₁, Cpu.ret_esp (by omega), hb]
  have hmemory₁ : s₁.memory = d.memory := by
    rw [← hs₁, Cpu.exec]
    rfl
  have hesp₂ : s₂.regs .esp = b + 8 := by
    rw [← hs₂, Cpu.exec, Cpu.pop_regs, Function.update_self, Cpu.head, hesp₁, hmemory₁]
    exact h.call.2.1
  have hmemory₂ : s₂.memory = d.memory := by
    rw [← hs₂, Cpu.exec, ← hmemory₁]
    rfl
  obtain ⟨s₃, hs₃⟩ : ∃ s, s₂.set .esp (b + 56) = s := ⟨_, rfl⟩
  have hadd₃ : s₂.exec (.add .esp 48) = s₃ := by
    rw [Cpu.exec, hesp₂, u32_of_lt (by omega), hs₃]
  have hesp₃ : s₃.regs .esp = b + 56 := by
    rw [← hs₃, Cpu.set_self]
  have hmemory₃ : s₃.memory = d.memory := by
    rw [← hs₃, ← hmemory₂]
    rfl
  obtain ⟨s₄, hs₄⟩ : ∃ s, s₃.exec .popa = s := ⟨_, rfl⟩
  have hsaved : s₃.memory.Words (s₃.regs .esp) [c.regs .edi, c.regs .esi, c.regs .ebp, b + 8 + 80,
      c.regs .ebx, c.regs .edx, c.regs .ecx, c.regs .eax] := by
    rw [hesp₃, hmemory₃]
    exact h.saved.registers
  obtain ⟨hesp₄, hregs₄, hmemory₄⟩ := Cpu.popa_run hsaved (by omega)
  rw [hs₄, hesp₃] at hesp₄
  rw [hs₄] at hregs₄ hmemory₄
  obtain ⟨s₅, hs₅⟩ : ∃ s, s₄.set .esp (b + 196) = s := ⟨_, rfl⟩
  have hadd₅ : s₄.exec (.add .esp 108) = s₅ := by
    rw [Cpu.exec, hesp₄, u32_of_lt (by omega), hs₅]
  have hesp₅ : s₅.regs .esp = b + 196 := by
    rw [← hs₅, Cpu.set_self]
  have hadd₆ : s₅.exec (.add .esp 8) = s₅.set .esp (b + 204) := by
    rw [Cpu.exec, hesp₅, u32_of_lt (by omega)]
  refine ⟨s₅.set .esp (b + 204), ?_, Cpu.set_self _ _ _, fun r hr => ?_, ?_⟩
  · simp only [excReturn, Cpu.run, List.foldl_cons, List.foldl_nil, hs₁, hs₂, hadd₃, hs₄,
      Cpu.exec_frstor, Cpu.exec_fwait, hadd₅, hadd₆]
  · rw [Cpu.set_ne hr, ← hs₅, Cpu.set_ne hr, hregs₄ r hr]
  · rw [← hmemory₃, ← hmemory₄, ← hs₅]
    rfl

/-- Where `iret` leaves the stack pointer. -/
theorem iret_esp (s : Cpu) : (s.exec .iret).regs .esp = u32 (s.regs .esp + 12) := by
  have hdrop : ∀ d : Cpu, d.drop.regs .esp = u32 (d.regs .esp + 4) := fun d => Cpu.set_self _ _ _
  rw [Cpu.exec]
  change s.drop.drop.drop.regs .esp = _
  rw [hdrop, hdrop, hdrop]
  unfold u32
  omega

theorem length_frameWords (code : Option Nat) (number : Nat) (c : Cpu) :
    (frameWords code number c).length = 5 ↔ (code.isSome = true ↔ number ∈ withErrorCode) := by
  unfold frameWords
  by_cases hmem : number ∈ withErrorCode <;> cases code <;> simp [hmem]

/-- The handler gets a pointer to an `exception_state` that holds the state of the interrupted code.
The fields behind the number are right if and only if the processor pushes an error code where
`idt_exc` expects one. -/
theorem exception_state_saved (sys : SystemRegisters) (image : Nat → UInt8) (handler : Nat)
    (hc : c.Bounded) (hcode : ∀ e ∈ code, e < 4294967296) (hnumber : number < 4294967296)
    (hback : back < 4294967296) (hroom : 220 ≤ c.regs .esp) (hcs : c.cs ≠ 0) :
    let c' := sys.raise code number image handler back c
    let state := c'.memory.word (c'.regs .esp + 4)
    c'.eip = handler ∧ c'.memory.word (c'.regs .esp) = back ∧
      SavedState sys image c c'.memory state ∧ c'.memory.word (state + 188) = number ∧
      (FrameSaved c'.memory state code c ↔ (code.isSome = true ↔ number ∈ withErrorCode)) ∧
      ∀ x, x < c'.regs .esp ∨ c.regs .esp ≤ x → c'.memory x = c.memory x := by
  intro c' state
  obtain ⟨heip, hraised, hrest⟩ := raise_run sys image handler hc hcode hnumber hback
    hroom
  have hstate : state = c'.regs .esp + 8 := hraised.call.2.1
  rw [hstate]
  exact ⟨heip, hraised.call.1, hraised.saved, hraised.frame.1,
    frameSaved_iff hcs hraised.frame, hrest⟩

/-- When a handler returns that has left the frame as it is, the interrupted code goes on as if
nothing had happened, if and only if the processor has pushed an error code where `idt_exc` expects
one. -/
theorem exception_returns (sys : SystemRegisters) (image : Nat → UInt8) (handler : Nat)
    (hc : c.Bounded) (hcode : ∀ e ∈ code, e < 4294967296) (hnumber : number < 4294967296)
    (hback : back < 4294967296) (hroom : 220 ≤ c.regs .esp) {d : Cpu}
    (hstack : d.regs .esp = (sys.raise code number image handler back c).regs .esp)
    (hkeeps : ∀ x, d.regs .esp ≤ x → x < c.regs .esp →
      d.memory x = (sys.raise code number image handler back c).memory x) :
    ((d.run excReturn).regs = c.regs ∧ (d.run excReturn).eip = c.eip ∧
        (d.run excReturn).cs = c.cs ∧ (d.run excReturn).eflags = c.eflags ∧
        (d.run excReturn).memory = d.memory) ↔
      (code.isSome = true ↔ number ∈ withErrorCode) := by
  obtain ⟨-, hraised, -⟩ := raise_run sys image handler hc hcode hnumber hback hroom
  rw [← hstack] at hraised
  have hkept := hraised.keep hkeeps
  have htop := hkept.top
  have hesp := hc.regs .esp
  obtain ⟨s, hrun, hdown, hregs, hmemory⟩ := return_run hkept hesp
  rw [hrun, ← length_frameWords code number c]
  constructor
  · rintro ⟨hall, -⟩
    have hback : (s.exec .iret).regs .esp = c.regs .esp := by rw [hall]
    rw [iret_esp, hdown] at hback
    unfold u32 at hback
    omega
  · intro hlength
    have hframe : s.memory.Words (s.regs .esp) [c.eip, c.cs, c.eflags] := by
      have hwords := hkept.frame
      have hsplit : frameWords code number c =
          (frameWords code number c).take 2 ++ [c.eip, c.cs, c.eflags] := by
        unfold frameWords at hlength ⊢
        cases code <;> split at hlength <;> simp_all
      rw [hsplit, words_append, List.length_take, hlength] at hwords
      rw [hmemory, hdown]
      exact hwords.2
    obtain ⟨heip, hcs, heflags, hesp', hne, hmemory'⟩ := Cpu.iret_run hframe (by omega)
    refine ⟨funext fun r => ?_, heip, hcs, heflags, hmemory'.trans hmemory⟩
    by_cases hr : r = .esp
    · rw [hr, hesp', hdown]
      omega
    · rw [hne r hr, hregs r hr]

end Raise

/-! ## A page fault -/

/-- The processor before a page fault. -/
def faulting : Cpu where
  regs _ := 8192
  eip := 4096
  cs := 8
  eflags := 2
  memory _ := 0

def zeroRegisters : SystemRegisters where
  value _ := 0
  gdtr := 0
  idtr := 0
  lt _ := by decide

theorem faulting_bounded : faulting.Bounded :=
  ⟨fun _ => show 8192 < 4294967296 by decide, by decide, by decide, by decide⟩

theorem exception_state_saved_page_fault :
    let c' := zeroRegisters.raise (some 2) 14 (fun _ => 0) 0 0 faulting
    let state := c'.memory.word (c'.regs .esp + 4)
    c'.eip = 0 ∧ c'.memory.word (c'.regs .esp) = 0 ∧
      SavedState zeroRegisters (fun _ => 0) faulting c'.memory state ∧
      c'.memory.word (state + 188) = 14 ∧
      (FrameSaved c'.memory state (some 2) faulting ↔
        ((some 2 : Option Nat).isSome = true ↔ 14 ∈ withErrorCode)) ∧
      ∀ x, x < c'.regs .esp ∨ faulting.regs .esp ≤ x → c'.memory x = faulting.memory x :=
  exception_state_saved zeroRegisters _ 0 faulting_bounded (by simp) (by decide) (by decide)
    (by decide) (by decide)

/-- A handler that returns at once. -/
theorem exception_returns_page_fault :
    let d := zeroRegisters.raise (some 2) 14 (fun _ => 0) 0 0 faulting
    ((d.run excReturn).regs = faulting.regs ∧ (d.run excReturn).eip = faulting.eip ∧
        (d.run excReturn).cs = faulting.cs ∧ (d.run excReturn).eflags = faulting.eflags ∧
        (d.run excReturn).memory = d.memory) ↔
      ((some 2 : Option Nat).isSome = true ↔ 14 ∈ withErrorCode) := by
  intro d
  have hstack : d.regs .esp =
      (zeroRegisters.raise (some 2) 14 (fun _ => 0) 0 0 faulting).regs .esp := rfl
  exact exception_returns zeroRegisters (fun _ => 0) 0 faulting_bounded (by simp) (by decide)
    (by decide) (by decide) hstack fun _ _ _ => rfl


end NickOS3.Interrupt
