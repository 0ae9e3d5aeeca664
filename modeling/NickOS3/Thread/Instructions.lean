import NickOS3.Lib.Blocks
import Mathlib.Logic.Function.Basic

/-!
# Instructions

The part of the processor that `context_switch`, `first_switch` and `idt_int_wrapper` use, and
memory as a stack of words.
-/

namespace NickOS3

/-! ## Words in memory -/

/-- The words from `a` on. -/
def Bytes.Words (m : Bytes) : Nat → List Nat → Prop
  | _, [] => True
  | a, w :: ws => m.word a = w ∧ m.Words (a + 4) ws

namespace Thread

open Lib

section Words

variable {m m' : Bytes} {a b v : Nat} {ws : List Nat}

theorem word_congr (h : ∀ x, a ≤ x → x < a + 4 → m' x = m x) : m'.word a = m.word a := by
  unfold Bytes.word
  rw [h a (by omega) (by omega), h (a + 1) (by omega) (by omega), h (a + 2) (by omega) (by omega),
    h (a + 3) (by omega) (by omega)]

theorem words_congr (h : ∀ x, a ≤ x → x < a + 4 * ws.length → m' x = m x) (hm : m.Words a ws) :
    m'.Words a ws := by
  induction ws generalizing a with
  | nil => trivial
  | cons w ws ih =>
      rw [List.length_cons] at h
      refine ⟨(word_congr fun x hlow hhigh => h x hlow (by omega)).trans hm.1, ?_⟩
      exact ih (fun x hlow hhigh => h x (by omega) (by omega)) hm.2

theorem words_append {vs : List Nat} :
    m.Words a (ws ++ vs) ↔ m.Words a ws ∧ m.Words (a + 4 * ws.length) vs := by
  induction ws generalizing a with
  | nil => exact (and_iff_right trivial).symm
  | cons w ws ih =>
      have hlength : a + 4 + 4 * ws.length = a + 4 * (w :: ws).length := by
        rw [List.length_cons]
        omega
      rw [List.cons_append, Bytes.Words, ih, Bytes.Words, hlength, and_assoc]

theorem word_lt (m : Bytes) (a : Nat) : m.word a < 4294967296 := by
  unfold Bytes.word
  have h₀ := (m a).toNat_lt
  have h₁ := (m (a + 1)).toNat_lt
  have h₂ := (m (a + 2)).toNat_lt
  have h₃ := (m (a + 3)).toNat_lt
  omega

theorem storeWord_of_outside {x : Nat} (h : x < a ∨ a + 4 ≤ x) : storeWord a v m x = m x := by
  rw [storeWord_apply, if_neg (by omega)]

theorem word_storeWord_ne (h : b + 4 ≤ a ∨ a + 4 ≤ b) : (storeWord a v m).word b = m.word b :=
  word_congr fun _ _ _ => storeWord_of_outside (by omega)

theorem word_storeWord (hv : v < 4294967296) : (storeWord a v m).word a = v := by
  have hbyte : ∀ k < 4, (storeWord a v m (a + k)).toNat = v / 256 ^ k % 256 := by
    intro k hk
    rw [storeWord_apply, if_pos (by omega), Nat.add_sub_cancel_left, byteOf, UInt8.toNat_ofNat']
  have h₀ := hbyte 0 (by decide)
  have h₁ := hbyte 1 (by decide)
  have h₂ := hbyte 2 (by decide)
  have h₃ := hbyte 3 (by decide)
  rw [Nat.add_zero, Nat.pow_zero, Nat.div_one] at h₀
  unfold Bytes.word
  omega

theorem words_storeWord_ne (h : b + 4 * ws.length ≤ a ∨ a + 4 ≤ b) (hm : m.Words b ws) :
    (storeWord a v m).Words b ws :=
  words_congr (fun _ _ _ => storeWord_of_outside (by omega)) hm

/-- A word in front of others. -/
theorem words_cons (hv : v < 4294967296) (hm : m.Words (a + 4) ws) :
    (storeWord a v m).Words a (v :: ws) :=
  ⟨word_storeWord hv, words_storeWord_ne (.inr (Nat.le_refl _)) hm⟩

end Words

/-! ## The processor -/

/-- The general registers. -/
inductive Register
  | eax
  | ecx
  | edx
  | ebx
  | esp
  | ebp
  | esi
  | edi
  deriving DecidableEq

abbrev Registers := Register → Nat

/-- The registers and memory; the state of the floating-point unit is left out. -/
structure Cpu where
  regs : Registers
  eip : Nat
  cs : Nat
  eflags : Nat
  memory : Bytes

/-- `[base + index + offset]` -/
structure Operand where
  base : Register
  index : Option Register
  offset : Nat

inductive Instruction
  | push (r : Register)
  | pushValue (value : Nat)
  | pop (r : Register)
  | move (r : Register) (value : Nat)
  | load (r : Register) (source : Operand)
  | store (dest : Operand) (r : Register)
  | add (r : Register) (value : Nat)
  | sub (r : Register) (value : Nat)
  | pusha
  | popa
  | fnsave (image : Nat → UInt8)
  | frstor
  | fwait
  | cli
  | call (target back : Nat)
  | ret
  | iret

namespace Cpu

variable (c : Cpu)

def set (r : Register) (value : Nat) : Cpu := { c with regs := Function.update c.regs r value }

def push (value : Nat) : Cpu :=
  let esp := u32 (c.regs .esp + 4294967292)
  { c.set .esp esp with memory := storeWord esp value c.memory }

/-- The word that `esp` points to. -/
def head : Nat := c.memory.word (c.regs .esp)

/-- Moves `esp` up by a word. -/
def drop : Cpu := c.set .esp (u32 (c.regs .esp + 4))

/-- `pop r`; `pop esp` leaves what it has popped. -/
def pop (r : Register) : Cpu := c.drop.set r c.head

def pushes (values : List Nat) : Cpu := values.foldl push c

def pops (rs : List Register) : Cpu := rs.foldl pop c

def address (a : Operand) : Nat :=
  u32 (c.regs a.base + (a.index.elim 0 c.regs) + a.offset)

/-- `eflags` without the interrupt flag. -/
def clearIf : Nat := if c.eflags / 512 % 2 = 1 then c.eflags - 512 else c.eflags

/-- An instruction. `fnsave` writes an image of 108 bytes; what `frstor` reads back and the flags of
`add` and `sub` are left out. -/
def exec : Instruction → Cpu
  | .push r => c.push (c.regs r)
  | .pushValue value => c.push value
  | .pop r => c.pop r
  | .move r value => c.set r value
  | .load r source => c.set r (c.memory.word (c.address source))
  | .store dest r => { c with memory := storeWord (c.address dest) (c.regs r) c.memory }
  | .add r value => c.set r (u32 (c.regs r + value))
  | .sub r value => c.set r (u32 (c.regs r + 4294967296 - value))
  | .pusha => c.pushes ([.eax, .ecx, .edx, .ebx, .esp, .ebp, .esi, .edi].map c.regs)
  | .popa => ((c.pops [.edi, .esi, .ebp]).drop).pops [.ebx, .edx, .ecx, .eax]
  | .fnsave image =>
      { c with memory := fun x =>
          if c.regs .esp ≤ x ∧ x < c.regs .esp + 108 then image (x - c.regs .esp)
          else c.memory x }
  | .frstor => c
  | .fwait => c
  | .cli => { c with eflags := c.clearIf }
  | .call target back => { c.push back with eip := target }
  | .ret => { c.drop with eip := c.head }
  | .iret =>
      let eip := c.head
      let cs := c.drop.head
      let eflags := c.drop.drop.head
      { c.drop.drop.drop with eip := eip, cs := cs, eflags := eflags }

/-- The state behind a routine. -/
def run (routine : List Instruction) : Cpu := routine.foldl exec c

end Cpu

/-- The states behind the instructions of a routine, one after the other. -/
def Cpu.trace (c : Cpu) : List Instruction → List Cpu
  | [] => []
  | i :: rest => c.exec i :: (c.exec i).trace rest

/-! ## Registers hold words -/

/-- Every register holds a word. -/
structure Cpu.Bounded (c : Cpu) : Prop where
  regs : ∀ r, c.regs r < 4294967296
  eip : c.eip < 4294967296
  cs : c.cs < 4294967296
  eflags : c.eflags < 4294967296

/-- The operands of an instruction are words. -/
def Instruction.Bounded : Instruction → Prop
  | .move _ value => value < 4294967296
  | .call target _ => target < 4294967296
  | _ => True

section Bounded

variable {c : Cpu} {r : Register} {v : Nat}

theorem Cpu.Bounded.set (h : c.Bounded) (hv : v < 4294967296) : (c.set r v).Bounded := by
  refine ⟨fun q => ?_, h.eip, h.cs, h.eflags⟩
  unfold Cpu.set
  dsimp only
  rw [Function.update_apply]
  split
  · exact hv
  · exact h.regs q

theorem Cpu.Bounded.push (h : c.Bounded) : (c.push v).Bounded := by
  have hset : (c.set .esp (u32 (c.regs .esp + 4294967292))).Bounded := h.set (u32_lt _)
  exact ⟨hset.regs, hset.eip, hset.cs, hset.eflags⟩

theorem Cpu.Bounded.drop (h : c.Bounded) : c.drop.Bounded := h.set (u32_lt _)

theorem Cpu.Bounded.pop (h : c.Bounded) : (c.pop r).Bounded := h.drop.set (word_lt _ _)

theorem Cpu.Bounded.pops (h : c.Bounded) (rs : List Register) : (c.pops rs).Bounded := by
  induction rs generalizing c with
  | nil => exact h
  | cons r rs ih => exact ih h.pop

theorem Cpu.Bounded.pushes (h : c.Bounded) (values : List Nat) : (c.pushes values).Bounded := by
  induction values generalizing c with
  | nil => exact h
  | cons v values ih => exact ih h.push

theorem Cpu.Bounded.exec (h : c.Bounded) {i : Instruction} (hi : i.Bounded) :
    (c.exec i).Bounded := by
  cases i with
  | push r => exact h.push
  | pushValue value => exact h.push
  | pop r => exact h.pop
  | move r value => exact h.set hi
  | load r source => exact h.set (word_lt _ _)
  | store dest r => exact ⟨h.regs, h.eip, h.cs, h.eflags⟩
  | add r value => exact h.set (u32_lt _)
  | sub r value => exact h.set (u32_lt _)
  | pusha => exact h.pushes _
  | popa => exact (h.pops _).drop.pops _
  | fnsave image => exact ⟨h.regs, h.eip, h.cs, h.eflags⟩
  | frstor => exact h
  | fwait => exact h
  | cli =>
      refine ⟨h.regs, h.eip, h.cs, ?_⟩
      have heflags := h.eflags
      change c.clearIf < 4294967296
      unfold Cpu.clearIf
      split <;> omega
  | call target back =>
      have hpush := h.push (v := back)
      exact ⟨hpush.regs, hi, hpush.cs, hpush.eflags⟩
  | ret =>
      have hdrop := h.drop
      exact ⟨hdrop.regs, word_lt _ _, hdrop.cs, hdrop.eflags⟩
  | iret =>
      have hdrop := h.drop.drop.drop
      exact ⟨hdrop.regs, word_lt _ _, word_lt _ _, word_lt _ _⟩

theorem Cpu.Bounded.run (h : c.Bounded) {routine : List Instruction}
    (hroutine : ∀ i ∈ routine, i.Bounded) : (c.run routine).Bounded := by
  induction routine generalizing c with
  | nil => exact h
  | cons i routine ih =>
      exact ih (h.exec (hroutine i List.mem_cons_self))
        fun j hj => hroutine j (List.mem_cons_of_mem i hj)

end Bounded

/-! ## Pushing and popping -/

section Stack

variable {c c' : Cpu} {r : Register} {ws : List Nat} {v : Nat}

/-- `c'` is behind `c`, with some words pushed. -/
structure Pushed (c : Cpu) (ws : List Nat) (c' : Cpu) : Prop where
  esp : c'.regs .esp + 4 * ws.length = c.regs .esp
  regs : ∀ r ≠ .esp, c'.regs r = c.regs r
  words : c'.memory.Words (c'.regs .esp) ws
  rest : ∀ x, x < c'.regs .esp ∨ c.regs .esp ≤ x → c'.memory x = c.memory x

theorem Pushed.refl (c : Cpu) : Pushed c [] c := ⟨rfl, fun _ _ => rfl, trivial, fun _ _ => rfl⟩

theorem Cpu.set_self (c : Cpu) (r : Register) (v : Nat) : (c.set r v).regs r = v := by
  unfold Cpu.set
  dsimp only
  rw [Function.update_self]

theorem Cpu.set_ne {q : Register} (h : q ≠ r) : (c.set r v).regs q = c.regs q := by
  unfold Cpu.set
  dsimp only
  rw [Function.update_of_ne h]

theorem Pushed.of_eq {c'' : Cpu} (h : Pushed c ws c') (hregs : c''.regs = c'.regs)
    (hmemory : c''.memory = c'.memory) : Pushed c ws c'' := by
  constructor
  · rw [hregs]
    exact h.esp
  · rw [hregs]
    exact h.regs
  · rw [hregs, hmemory]
    exact h.words
  · rw [hregs, hmemory]
    exact h.rest

theorem Cpu.push_esp (hroom : 4 ≤ c.regs .esp) (hesp : c.regs .esp < 4294967296) :
    (c.push v).regs .esp + 4 = c.regs .esp := by
  unfold Cpu.push Cpu.set u32
  dsimp only
  rw [Function.update_self]
  omega

theorem Cpu.push_regs (hr : r ≠ .esp) : (c.push v).regs r = c.regs r := by
  unfold Cpu.push Cpu.set
  dsimp only
  rw [Function.update_of_ne hr]

theorem Cpu.push_memory :
    (c.push v).memory = storeWord ((c.push v).regs .esp) v c.memory := by
  unfold Cpu.push Cpu.set
  dsimp only
  rw [Function.update_self]

theorem Pushed.push (h : Pushed c ws c') (hroom : 4 ≤ c'.regs .esp)
    (hesp : c.regs .esp < 4294967296) (hv : v < 4294967296) : Pushed c (v :: ws) (c'.push v) := by
  have hlen := h.esp
  have hdown : (c'.push v).regs .esp + 4 = c'.regs .esp := Cpu.push_esp hroom (by omega)
  have hmemory : (c'.push v).memory = _ := Cpu.push_memory
  constructor
  · rw [List.length_cons]
    omega
  · intro r hr
    exact (Cpu.push_regs hr).trans (h.regs r hr)
  · have hwords := h.words
    rw [← hdown] at hwords
    rw [hmemory]
    exact words_cons hv hwords
  · intro x hx
    rw [hmemory, storeWord_of_outside (by omega)]
    exact h.rest x (by omega)

theorem Pushed.pushes (h : Pushed c ws c') (values : List Nat)
    (hroom : 4 * values.length ≤ c'.regs .esp) (hesp : c.regs .esp < 4294967296)
    (hvalues : ∀ v ∈ values, v < 4294967296) :
    Pushed c (values.reverse ++ ws) (c'.pushes values) := by
  induction values generalizing c' ws with
  | nil => exact h
  | cons v values ih =>
      rw [List.length_cons] at hroom
      have hpush := h.push (v := v) (by omega) hesp (hvalues v List.mem_cons_self)
      have hdown := hpush.esp
      rw [List.length_cons] at hdown
      have hlen := h.esp
      rw [List.reverse_cons, List.append_assoc]
      exact ih hpush (by omega) fun w hw => hvalues w (List.mem_cons_of_mem v hw)

/-- `call` -/
theorem Pushed.call {back : Nat} (h : Pushed c ws c') (target : Nat) (hroom : 4 ≤ c'.regs .esp)
    (hesp : c.regs .esp < 4294967296) (hback : back < 4294967296) :
    Pushed c (back :: ws) (c'.exec (.call target back)) := by
  refine (h.push hroom hesp hback).of_eq ?_ ?_
  · rw [Cpu.exec]
  · rw [Cpu.exec]

theorem Cpu.call_eip {target back : Nat} : (c.exec (.call target back)).eip = target := by
  rw [Cpu.exec]

theorem Cpu.exec_fwait (c : Cpu) : c.exec .fwait = c := by
  rw [Cpu.exec]

theorem Cpu.exec_frstor (c : Cpu) : c.exec .frstor = c := by
  rw [Cpu.exec]

theorem Cpu.fnsave_regs {image : Nat → UInt8} : (c.exec (.fnsave image)).regs = c.regs := by
  rw [Cpu.exec]

theorem Cpu.fnsave_memory {image : Nat → UInt8} {x : Nat}
    (h : x < c.regs .esp ∨ c.regs .esp + 108 ≤ x) :
    (c.exec (.fnsave image)).memory x = c.memory x := by
  rw [Cpu.exec]
  exact if_neg (by omega)

/-- `c'` is behind `c`, with the words popped into the registers. -/
structure Popped (c : Cpu) (rs : List Register) (ws : List Nat) (c' : Cpu) : Prop where
  esp : c'.regs .esp = c.regs .esp + 4 * ws.length
  popped : ∀ p ∈ rs.zip ws, c'.regs p.1 = p.2
  regs : ∀ r ≠ .esp, r ∉ rs → c'.regs r = c.regs r
  memory : c'.memory = c.memory

theorem Cpu.pop_regs : (c.pop r).regs =
    Function.update (Function.update c.regs .esp (u32 (c.regs .esp + 4))) r c.head := by
  unfold Cpu.pop Cpu.drop Cpu.set
  rfl

theorem Cpu.pop_esp (hr : r ≠ .esp) (hesp : c.regs .esp + 4 < 4294967296) :
    (c.pop r).regs .esp = c.regs .esp + 4 := by
  rw [Cpu.pop_regs, Function.update_of_ne hr.symm, Function.update_self, u32_of_lt hesp]

theorem Cpu.pops_popped {rs : List Register} (more : List Nat) (hesp : .esp ∉ rs)
    (hnodup : rs.Nodup) (hlength : rs.length = ws.length)
    (hwords : c.memory.Words (c.regs .esp) (ws ++ more))
    (hlt : c.regs .esp + 4 * ws.length < 4294967296) : Popped c rs ws (c.pops rs) := by
  induction rs generalizing c ws with
  | nil =>
      obtain rfl := List.length_eq_zero_iff.mp hlength.symm
      exact ⟨rfl, nofun, fun _ _ _ => rfl, rfl⟩
  | cons r rs ih =>
      obtain _ | ⟨w, ws⟩ := ws
      · exact absurd hlength nofun
      rw [List.mem_cons, not_or] at hesp
      rw [List.nodup_cons] at hnodup
      rw [List.length_cons, List.length_cons] at hlength
      rw [List.length_cons] at hlt
      have hdown : (c.pop r).regs .esp = c.regs .esp + 4 := Cpu.pop_esp (Ne.symm hesp.1) (by omega)
      have hrest : Popped (c.pop r) rs ws ((c.pop r).pops rs) := by
        refine ih hesp.2 hnodup.2 (by omega) ?_ (by omega)
        rw [hdown]
        exact hwords.2
      constructor
      · rw [Cpu.pops, List.foldl_cons, ← Cpu.pops, hrest.esp, hdown, List.length_cons]
        omega
      · rintro p hp
        rcases List.mem_cons.mp hp with rfl | hp
        · rw [Cpu.pops, List.foldl_cons, ← Cpu.pops, hrest.regs r (Ne.symm hesp.1) hnodup.1,
            Cpu.pop_regs, Function.update_self]
          exact hwords.1
        · exact hrest.popped p hp
      · intro x hx hmem
        rw [List.mem_cons, not_or] at hmem
        rw [Cpu.pops, List.foldl_cons, ← Cpu.pops, hrest.regs x hx hmem.2, Cpu.pop_regs,
          Function.update_of_ne hmem.1, Function.update_of_ne hx]
      · exact hrest.memory

theorem Cpu.run_append (c : Cpu) (first rest : List Instruction) :
    c.run (first ++ rest) = (c.run first).run rest := List.foldl_append

theorem Cpu.mem_trace_append {first rest : List Instruction} {x : Cpu} :
    x ∈ c.trace (first ++ rest) ↔ x ∈ c.trace first ∨ x ∈ (c.run first).trace rest := by
  induction first generalizing c with
  | nil => exact (or_iff_right List.not_mem_nil).symm
  | cons i first ih =>
      rw [List.cons_append, Cpu.trace, List.mem_cons, ih, Cpu.trace, List.mem_cons, or_assoc]
      rfl

theorem Cpu.ret_ne (h : r ≠ .esp) : (c.exec .ret).regs r = c.regs r := by
  rw [Cpu.exec, Cpu.drop, Cpu.set_ne h]

theorem Cpu.ret_esp (h : c.regs .esp + 4 < 4294967296) :
    (c.exec .ret).regs .esp = c.regs .esp + 4 := by
  rw [Cpu.exec, Cpu.drop, Cpu.set_self, u32_of_lt h]

theorem Cpu.drop_esp (h : c.regs .esp + 4 < 4294967296) : c.drop.regs .esp = c.regs .esp + 4 := by
  rw [Cpu.drop, Cpu.set_self, u32_of_lt h]

theorem Cpu.drop_ne (h : r ≠ .esp) : c.drop.regs r = c.regs r := Cpu.set_ne h

theorem Cpu.iret_run {eip cs eflags : Nat}
    (hwords : c.memory.Words (c.regs .esp) [eip, cs, eflags])
    (hlt : c.regs .esp + 12 < 4294967296) :
    let c' := c.exec .iret
    c'.eip = eip ∧ c'.cs = cs ∧ c'.eflags = eflags ∧ c'.regs .esp = c.regs .esp + 12 ∧
      (∀ r ≠ .esp, c'.regs r = c.regs r) ∧ c'.memory = c.memory := by
  have h₁ : c.drop.regs .esp = c.regs .esp + 4 := Cpu.drop_esp (by omega)
  have h₂ : c.drop.drop.regs .esp = c.regs .esp + 8 := by
    rw [Cpu.drop_esp (by omega), h₁]
  have h₃ : c.drop.drop.drop.regs .esp = c.regs .esp + 12 := by
    rw [Cpu.drop_esp (by omega), h₂]
  have hcs : c.drop.head = cs := by
    rw [Cpu.head, h₁]
    exact hwords.2.1
  have heflags : c.drop.drop.head = eflags := by
    rw [Cpu.head, h₂]
    exact hwords.2.2.1
  have hne : ∀ r ≠ .esp, c.drop.drop.drop.regs r = c.regs r := by
    intro r hr
    rw [Cpu.drop_ne hr, Cpu.drop_ne hr, Cpu.drop_ne hr]
  exact ⟨hwords.1, hcs, heflags, h₃, hne, rfl⟩

/-- A row of `push` instructions, with the states between them. -/
theorem Pushed.registers (h : Pushed c ws c') (rs : List Register) (hrs : .esp ∉ rs)
    (hroom : 4 * rs.length ≤ c'.regs .esp) (hregs : ∀ r, c.regs r < 4294967296) :
    Pushed c ((rs.map c.regs).reverse ++ ws) (c'.run (rs.map .push)) ∧
      ∀ x ∈ c'.trace (rs.map .push),
        ∃ vs, Pushed c vs x ∧ vs.length ≤ rs.length + ws.length := by
  induction rs generalizing c' ws with
  | nil => exact ⟨h, nofun⟩
  | cons r rs ih =>
      rw [List.mem_cons, not_or] at hrs
      rw [List.length_cons] at hroom
      have hpush : Pushed c (c.regs r :: ws) (c'.exec (.push r)) := by
        rw [Cpu.exec, h.regs r (Ne.symm hrs.1)]
        exact h.push (by omega) (hregs .esp) (hregs r)
      have hlen := h.esp
      have hdown := hpush.esp
      rw [List.length_cons] at hdown
      obtain ⟨hrun, htrace⟩ := ih hpush hrs.2 (by omega)
      constructor
      · rw [List.map_cons, List.reverse_cons, List.append_assoc]
        exact hrun
      · intro x hx
        rw [List.map_cons, Cpu.trace, List.mem_cons] at hx
        rcases hx with rfl | hx
        · exact ⟨_, hpush, by rw [List.length_cons, List.length_cons]; omega⟩
        · obtain ⟨vs, hvs, hlength⟩ := htrace x hx
          rw [List.length_cons] at hlength
          exact ⟨vs, hvs, by rw [List.length_cons]; omega⟩

/-- The states between the instructions of a row of `pop`. -/
theorem Cpu.mem_trace_pop {rs : List Register} {x : Cpu} (hesp : .esp ∉ rs)
    (hlt : c.regs .esp + 4 * rs.length < 4294967296) (hx : x ∈ c.trace (rs.map .pop)) :
    x.memory = c.memory ∧ c.regs .esp ≤ x.regs .esp ∧
      x.regs .esp ≤ c.regs .esp + 4 * rs.length := by
  induction rs generalizing c with
  | nil => exact absurd hx List.not_mem_nil
  | cons r rs ih =>
      rw [List.mem_cons, not_or] at hesp
      rw [List.length_cons] at hlt ⊢
      have hup : (c.pop r).regs .esp = c.regs .esp + 4 := Cpu.pop_esp (Ne.symm hesp.1) (by omega)
      rw [List.map_cons, Cpu.trace, List.mem_cons, Cpu.exec] at hx
      rcases hx with rfl | hx
      · exact ⟨rfl, by omega, by omega⟩
      · obtain ⟨hmemory, hlow, hhigh⟩ := ih hesp.2 (by omega) hx
        exact ⟨hmemory, by omega, by omega⟩

theorem Cpu.run_pop (c : Cpu) (rs : List Register) : c.run (rs.map .pop) = c.pops rs := by
  rw [Cpu.run, List.foldl_map]
  rfl

/-- `pusha` -/
theorem Cpu.pusha_pushed (hroom : 32 ≤ c.regs .esp) (hregs : ∀ r, c.regs r < 4294967296) :
    Pushed c [c.regs .edi, c.regs .esi, c.regs .ebp, c.regs .esp, c.regs .ebx, c.regs .edx,
      c.regs .ecx, c.regs .eax] (c.exec .pusha) := by
  refine (Pushed.refl c).pushes
    ([.eax, .ecx, .edx, .ebx, .esp, .ebp, .esi, .edi].map c.regs) hroom (hregs _) ?_
  intro v hv
  obtain ⟨r, -, rfl⟩ := List.mem_map.mp hv
  exact hregs r

/-- `popa`, which does not pop `esp`. -/
theorem Cpu.popa_run {regs : Registers} {esp : Nat}
    (hwords : c.memory.Words (c.regs .esp) [regs .edi, regs .esi, regs .ebp, esp, regs .ebx,
      regs .edx, regs .ecx, regs .eax]) (hlt : c.regs .esp + 32 < 4294967296) :
    let c' := c.exec .popa
    c'.regs .esp = c.regs .esp + 32 ∧ (∀ r ≠ .esp, c'.regs r = regs r) ∧
      c'.memory = c.memory := by
  intro c'
  have hfirst : Popped c [.edi, .esi, .ebp] [regs .edi, regs .esi, regs .ebp]
      (c.pops [.edi, .esi, .ebp]) := by
    refine Cpu.pops_popped [esp, regs .ebx, regs .edx, regs .ecx, regs .eax] (by decide) (by decide)
      rfl hwords ?_
    simp only [List.length_cons, List.length_nil]
    omega
  obtain ⟨d, hd⟩ : ∃ d, c.pops [.edi, .esi, .ebp] = d := ⟨_, rfl⟩
  rw [hd] at hfirst
  have hmiddle : d.regs .esp = c.regs .esp + 12 := hfirst.esp
  have hdrop : d.drop.regs .esp = c.regs .esp + 16 := by
    rw [Cpu.drop_esp (by omega), hmiddle]
  have hmemory : d.drop.memory = c.memory := hfirst.memory
  have hsecond : Popped d.drop [.ebx, .edx, .ecx, .eax]
      [regs .ebx, regs .edx, regs .ecx, regs .eax] (d.drop.pops [.ebx, .edx, .ecx, .eax]) := by
    refine Cpu.pops_popped [] (by decide) (by decide) rfl ?_ ?_
    · rw [hmemory, hdrop]
      exact hwords.2.2.2.2
    · rw [hdrop]
      simp only [List.length_cons, List.length_nil]
      omega
  have hrun : c' = d.drop.pops [.ebx, .edx, .ecx, .eax] := by
    rw [← hd]
    rfl
  rw [← hrun] at hsecond
  refine ⟨?_, ?_, hsecond.memory.trans hmemory⟩
  · rw [hsecond.esp, hdrop]
    rfl
  · intro r hr
    by_cases hlate : r ∈ [Register.ebx, .edx, .ecx, .eax]
    · refine hsecond.popped (r, regs r) ?_
      simp only [List.mem_cons, List.not_mem_nil, or_false] at hlate
      rcases hlate with rfl | rfl | rfl | rfl <;> simp
    · rw [hsecond.regs r hr hlate, Cpu.drop_ne hr]
      refine hfirst.popped (r, regs r) ?_
      cases r <;> simp at hr hlate ⊢

end Stack

end Thread

end NickOS3
