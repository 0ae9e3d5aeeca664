import NickOS3.Foundation.Accesses
import NickOS3.Lib.Rows

/-!
# Threads that print at once

Nothing keeps a thread that prints from being preempted in `print_char`, by another thread that
prints or by the keyboard's interrupt. Every access to a port or to a byte of memory is a step of
its own here, and the steps of all threads interleave.
-/

namespace NickOS3.Lib

open Foundation

/-! ## The code, access by access -/

inductive ConsoleOp
  | portOut (port : Nat) (value : UInt8)
  | portIn
  | load (a : Nat)
  | store (a : Nat) (value : UInt8)

def ConsoleOp.Answer : ConsoleOp → Type
  | portOut _ _ => Unit
  | portIn => UInt8
  | load _ => UInt8
  | store _ _ => Unit

def ConsoleOp.perform : (op : ConsoleOp) → Console → op.Answer × Console
  | portOut port value, s => ((), portByteOut port value s)
  | portIn, s => (portByteIn s, s)
  | load a, s => (s.memory a, s)
  | store a value, s => ((), { s with memory := Function.update s.memory a value })

/-- The register of the device that has been selected and is accessed next. -/
def ConsoleOp.selects : Option UInt8 → ConsoleOp → Option UInt8
  | _, portOut port value => if port = REG_SCREEN_CTRL then some value else none
  | _, portIn => none
  | h, load _ => h
  | h, store _ _ => h

/-- The screen; a section lasts from the selection of a register to the access to it. -/
def screen : Resource Console ConsoleOp ConsoleOp.Answer (Option UInt8) where
  perform := ConsoleOp.perform
  held := ConsoleOp.selects
  free := none

abbrev ConsoleProgram := Accesses ConsoleOp ConsoleOp.Answer

namespace ConsoleProgram

def store (a : Nat) (value : UInt8) : ConsoleProgram Unit := .make (ConsoleOp.store a value)

def load (a : Nat) : ConsoleProgram UInt8 := .make (ConsoleOp.load a)

/-- `port_byte_out(REG_SCREEN_CTRL, index)`, and `port_byte_in(REG_SCREEN_DATA)` -/
def readRegister (index : UInt8) : ConsoleProgram UInt8 :=
  .access (.portOut REG_SCREEN_CTRL index) fun _ => .access .portIn fun value => .done value

/-- `port_byte_out(REG_SCREEN_CTRL, index)`, and `port_byte_out(REG_SCREEN_DATA, value)` -/
def writeRegister (index value : UInt8) : ConsoleProgram Unit :=
  .access (.portOut REG_SCREEN_CTRL index) fun _ =>
    .access (.portOut REG_SCREEN_DATA value) fun _ => .done ()

def getCursor : ConsoleProgram Nat := do
  let low ← readRegister 15
  let high ← readRegister 14
  return u16 ((low.toNat ||| high.toNat <<< 8) * 2)

def setCursor (offset : Nat) : ConsoleProgram Unit := do
  writeRegister 14 (UInt8.ofNat ((offset / 2) >>> 8))
  writeRegister 15 (UInt8.ofNat (offset / 2))

def memoryCopy (source dest noBytes : Nat) : ConsoleProgram Unit :=
  .each (fun i => do
    let byte ← load (source + i)
    store (dest + i) byte) (List.range noBytes)

def shuffleRows (rows : Nat) : ConsoleProgram Unit :=
  .each (fun i => memoryCopy (getScreenOffset 0 i + VIDEO_ADDRESS)
    (getScreenOffset 0 (i - 1) + VIDEO_ADDRESS) (MAX_COLS * 2)) (List.range' 1 rows)

def clearLine (line noBytes : Nat) : ConsoleProgram Unit :=
  .each (fun i => store (line + i) 0) (List.range noBytes)

def handleScrolling (offset : Nat) : ConsoleProgram Nat :=
  if offset < MAX_ROWS * MAX_COLS * 2 then return offset
  else do
    shuffleRows (MAX_ROWS - 1)
    clearLine (getScreenOffset 0 (MAX_ROWS - 1) + VIDEO_ADDRESS) (MAX_COLS * 2)
    return offset - 2 * MAX_COLS

/-- The character and its attribute under an offset, or nothing but a new offset. -/
def putChar (character attributeType : UInt8) (offset : Nat) : ConsoleProgram Nat :=
  if character = newlineChar then return getScreenOffset 79 (offset / (2 * MAX_COLS))
  else do
    store (VIDEO_ADDRESS + offset) character
    store (VIDEO_ADDRESS + offset + 1) attributeType
    return offset

def printChar (character attributeType : UInt8) : ConsoleProgram Unit := do
  let attributeType := if attributeType = 0 then WHITE_ON_BLACK else attributeType
  let offset ← getCursor
  let offset ← putChar character attributeType offset
  let offset ← handleScrolling (offset + 2)
  setCursor offset

def locOffset (col row : Int) : ConsoleProgram Nat :=
  if 0 ≤ col ∧ 0 ≤ row then return getScreenOffset col.toNat row.toNat else getCursor

def printCharLoc (character : UInt8) (col row : Int) (attributeType : UInt8) :
    ConsoleProgram Unit := do
  let attributeType := if attributeType = 0 then WHITE_ON_BLACK else attributeType
  let offset ← locOffset col row
  if character = newlineChar then return ()
  else do
    store (VIDEO_ADDRESS + offset) character
    store (VIDEO_ADDRESS + offset + 1) attributeType

end ConsoleProgram

/-- `ASCIITable` -/
def ASCIITable : List UInt8 :=
  [0, 0] ++ literal "1234567890-=" ++ [0, 0] ++ literal "qwertyuiop[]" ++ [0, 0] ++
    literal "asdfghjkl;" ++ [39, 96, 0, 92] ++ literal "zxcvbnm,./" ++ [0] ++ literal "*" ++ [0] ++
    literal " "

/-- `ASCIITable[scancode]`, with what lies behind the table. -/
def asciiOf (behind : Nat → UInt8) (scancode : UInt8) : UInt8 :=
  ASCIITable[scancode.toNat]?.getD (behind scancode.toNat)

/-- A character of a text that is printed, or a key. -/
inductive ConsoleCall
  | char (c : UInt8)
  | key (scancode : UInt8)

/-- `print_char` for a character, `keyboard_handler` for a key. -/
def ConsoleCall.program (behind : Nat → UInt8) : ConsoleCall → ConsoleProgram Unit
  | char c => ConsoleProgram.printChar c WHITE_ON_BLACK
  | key scancode => ConsoleProgram.printCharLoc (asciiOf behind scancode) 0 0 GREEN_ON_BLACK

/-- Threads that print, and the keyboard. -/
abbrev Printers (ι : Type) :=
  Parties Console ConsoleOp ConsoleOp.Answer (Option UInt8) ι ConsoleCall

def screenMachine {ι : Type} [DecidableEq ι] (behind : Nat → UInt8) (start : Console)
    (calls : ι → List ConsoleCall) : Machine (Printers ι) (Turn ι) :=
  partiesMachine screen (ConsoleCall.program behind) start calls

/-! ## A call alone -/

section Alone

variable {s : Console}

theorem run_getCursor : screen.run ConsoleProgram.getCursor s = getCursor s := rfl

theorem run_setCursor (offset : Nat) :
    screen.run (ConsoleProgram.setCursor offset) s = ((), setCursor offset s) := rfl

/-- A loop that changes memory only. -/
theorem foldl_memory {β : Type} (g : Bytes → β → Bytes) (bs : List β) (s : Console) :
    bs.foldl (fun s b => { s with memory := g s.memory b }) s =
      { s with memory := bs.foldl g s.memory } := by
  induction bs generalizing s with
  | nil => rfl
  | cons b bs ih => exact ih _

theorem run_memoryCopy (source dest noBytes : Nat) (s : Console) :
    (screen.run (ConsoleProgram.memoryCopy source dest noBytes) s).2 =
      { s with memory := memoryCopy source dest noBytes s.memory } := by
  rw [memoryCopy, ← foldl_memory]
  exact screen.run_each (fun _ _ => rfl) _

theorem run_shuffleRows (rows : Nat) (s : Console) :
    (screen.run (ConsoleProgram.shuffleRows rows) s).2 =
      { s with memory := shuffleRows rows s.memory } := by
  rw [shuffleRows, ← foldl_memory]
  exact screen.run_each (fun _ _ => run_memoryCopy _ _ _ _) _

theorem run_clearLine (line noBytes : Nat) (s : Console) :
    (screen.run (ConsoleProgram.clearLine line noBytes) s).2 =
      { s with memory := clearLine line noBytes s.memory } := by
  rw [clearLine, ← foldl_memory]
  exact screen.run_each (fun _ _ => rfl) _

theorem run_handleScrolling (offset : Nat) :
    screen.run (ConsoleProgram.handleScrolling offset) s = handleScrolling offset s := by
  unfold ConsoleProgram.handleScrolling handleScrolling
  split
  · rfl
  · rw [Resource.run_bind, Resource.run_bind, run_shuffleRows, run_clearLine]
    rfl

/-- A call of `print_char` that nothing interrupts is the function. -/
theorem run_printChar (character attributeType : UInt8) :
    (screen.run (ConsoleProgram.printChar character attributeType) s).2 =
      printChar character attributeType s := by
  unfold ConsoleProgram.printChar ConsoleProgram.putChar printChar
  dsimp only
  rw [Resource.run_bind, Resource.run_bind, Resource.run_bind, run_handleScrolling, run_setCursor,
    run_getCursor]
  split
  · rfl
  · rfl

theorem run_printCharLoc (character : UInt8) (col row : Int) (attributeType : UInt8) :
    (screen.run (ConsoleProgram.printCharLoc character col row attributeType) s).2 =
      printCharLoc character col row attributeType s := by
  unfold ConsoleProgram.printCharLoc ConsoleProgram.locOffset printCharLoc
  dsimp only
  rw [Resource.run_bind]
  by_cases hplace : 0 ≤ col ∧ 0 ≤ row
  · rw [if_pos hplace, if_pos hplace]
    split
    · rfl
    · rfl
  · rw [if_neg hplace, if_neg hplace]
    split
    · rfl
    · rfl

end Alone

/-! ## Two threads -/

/-- The cursor stands in cell 254 of an empty screen. -/
def cell254 : Console where
  memory _ := 0
  selected := 0
  registers r := if r = 15 then 254 else 0

/-- Two threads with a character each. -/
def twoCalls : Bool → List ConsoleCall := fun i => [.char (if i then 97 else 98)]

def twoThreads : Printers Bool where
  shared := cell254
  current _ := .done ()
  holds _ := none
  waiting := twoCalls
  begun := []

theorem twoThreads_start (behind : Nat → UInt8) :
    (screenMachine behind cell254 twoCalls).start twoThreads :=
  ⟨rfl, fun _ => rfl, fun _ => rfl, rfl, rfl⟩

/-! ## The page of the screen -/

/-- An address outside of the page that begins at `VIDEO_ADDRESS`. -/
def OffPage (a : Nat) : Prop := a < VIDEO_ADDRESS ∨ VIDEO_ADDRESS + PGSIZE ≤ a

/-- Nothing outside of the page has been written, and register 14 holds no more than its three
lowest bits, so that a cursor is below 2048 even if its two bytes belong to different ones. -/
structure OnPage (m : Bytes) (selected : Option UInt8) (s : Console) : Prop where
  memory : ∀ a, OffPage a → s.memory a = m a
  high : (s.registers 14).toNat ≤ 7
  selected : ∀ index, selected = some index → s.selected = index

section Keeps

variable {m : Bytes}

theorem keeps_store {a : Nat} (ha : ¬ OffPage a) (value : UInt8) :
    screen.Keeps (OnPage m) (fun _ => True) none (ConsoleProgram.store a value) := by
  intro s hs
  refine ⟨⟨fun x hx => ?_, hs.high, hs.selected⟩, rfl, trivial⟩
  rw [← hs.memory x hx]
  refine Function.update_of_ne ?_ _ _
  rintro rfl
  exact ha hx

theorem keeps_load (a : Nat) :
    screen.Keeps (OnPage m) (fun _ => True) none (ConsoleProgram.load a) :=
  fun _ hs => ⟨hs, rfl, trivial⟩

/-- The answer is that of the register, since nothing falls between the two accesses. -/
theorem keeps_readRegister (index : UInt8) :
    screen.Keeps (OnPage m) (fun value => index = 14 → value.toNat ≤ 7) none
      (ConsoleProgram.readRegister index) := by
  refine fun s hs => ⟨⟨hs.memory, hs.high, fun _ h => Option.some.inj h⟩, fun u hu => ?_⟩
  refine ⟨⟨hu.memory, hu.high, fun _ h => ?_⟩, rfl, fun hindex => ?_⟩
  · cases h
  · have hselected : u.selected = 14 := (hu.selected index rfl).trans hindex
    change (u.registers u.selected).toNat ≤ 7
    rw [hselected]
    exact hu.high

theorem keeps_writeRegister {index value : UInt8} (h : index = 14 → value.toNat ≤ 7) :
    screen.Keeps (OnPage m) (fun _ => True) none (ConsoleProgram.writeRegister index value) := by
  refine fun s hs => ⟨⟨hs.memory, hs.high, fun _ h => Option.some.inj h⟩, fun u hu => ?_⟩
  refine ⟨⟨hu.memory, ?_, fun _ h => ?_⟩, rfl, trivial⟩
  · have hselected : u.selected = index := hu.selected index rfl
    change (Function.update u.registers u.selected value 14).toNat ≤ 7
    rw [hselected]
    by_cases hindex : index = 14
    · rw [hindex, Function.update_self]
      exact h hindex
    · rw [Function.update_of_ne (Ne.symm hindex)]
      exact hu.high
  · cases h

theorem keeps_getCursor :
    screen.Keeps (OnPage m) (fun offset => offset ≤ 4094) none ConsoleProgram.getCursor := by
  refine (keeps_readRegister 15).bind fun low _ => (keeps_readRegister 14).bind fun high hhigh => ?_
  refine .pure ?_
  have hlow : low.toNat < 2 ^ 8 := low.toNat_lt
  have hcursor : low.toNat ||| high.toNat <<< 8 = high.toNat * 2 ^ 8 + low.toNat := by
    rw [Nat.or_comm, ← Nat.shiftLeft_add_eq_or_of_lt hlow, Nat.shiftLeft_eq]
  have hle := hhigh rfl
  rw [hcursor, u16]
  omega

theorem keeps_setCursor {offset : Nat} (h : offset ≤ 4094) :
    screen.Keeps (OnPage m) (fun _ => True) none (ConsoleProgram.setCursor offset) := by
  refine (keeps_writeRegister fun _ => ?_).bind fun _ _ => keeps_writeRegister fun h => ?_
  · rw [UInt8.toNat_ofNat', Nat.shiftRight_eq_div_pow]
    omega
  · exact absurd h (by decide)

theorem keeps_memoryCopy (source : Nat) {dest noBytes : Nat}
    (h : ∀ i < noBytes, ¬ OffPage (dest + i)) : screen.Keeps (OnPage m) (fun _ => True) none
      (ConsoleProgram.memoryCopy source dest noBytes) :=
  Resource.Keeps.each (P := (· < noBytes))
    (fun _ hi => (keeps_load _).bind fun byte _ => keeps_store (h _ hi) byte)
    fun _ hi => List.mem_range.mp hi

theorem keeps_shuffleRows {rows : Nat} (h : rows ≤ 24) : screen.Keeps (OnPage m) (fun _ => True)
    none (ConsoleProgram.shuffleRows rows) := by
  refine Resource.Keeps.each (P := (· ≤ 24)) (fun i hi => ?_) fun i hi => ?_
  · refine keeps_memoryCopy _ fun j hj => ?_
    unfold OffPage getScreenOffset MAX_COLS PGSIZE at *
    omega
  · have hrange := List.mem_range'_1.mp hi
    omega

theorem keeps_clearLine {line noBytes : Nat} (h : ∀ i < noBytes, ¬ OffPage (line + i)) :
    screen.Keeps (OnPage m) (fun _ => True) none (ConsoleProgram.clearLine line noBytes) :=
  Resource.Keeps.each (P := (· < noBytes)) (fun _ hi => keeps_store (h _ hi) 0)
    fun _ hi => List.mem_range.mp hi

theorem keeps_handleScrolling {offset : Nat} (h : offset ≤ 4160) :
    screen.Keeps (OnPage m) (fun offset' => offset' ≤ 4000) none
      (ConsoleProgram.handleScrolling offset) := by
  unfold ConsoleProgram.handleScrolling
  split
  · rename_i hlt
    refine .pure ?_
    unfold MAX_ROWS MAX_COLS at hlt
    omega
  · refine (keeps_shuffleRows (by decide)).bind fun _ _ => (keeps_clearLine fun i hi => ?_).bind
      fun _ _ => .pure ?_
    · unfold OffPage getScreenOffset MAX_ROWS MAX_COLS PGSIZE at *
      omega
    · unfold MAX_COLS
      omega

theorem keeps_putChar (character attributeType : UInt8) {offset : Nat} (h : offset ≤ 4094) :
    screen.Keeps (OnPage m) (fun offset' => offset' ≤ 4158) none
      (ConsoleProgram.putChar character attributeType offset) := by
  unfold ConsoleProgram.putChar
  split
  · refine .pure ?_
    unfold getScreenOffset MAX_COLS
    omega
  · refine (keeps_store ?_ _).bind fun _ _ => (keeps_store ?_ _).bind fun _ _ => .pure (by omega)
    · unfold OffPage PGSIZE
      omega
    · unfold OffPage PGSIZE
      omega

theorem keeps_printChar (character attributeType : UInt8) :
    screen.Keeps (OnPage m) (fun _ => True) none
      (ConsoleProgram.printChar character attributeType) := by
  refine keeps_getCursor.bind fun offset hoffset => ?_
  refine (keeps_putChar _ _ hoffset).bind fun offset' hoffset' => ?_
  refine (keeps_handleScrolling (by omega)).bind fun offset'' hoffset'' => ?_
  exact keeps_setCursor (by omega)

/-- `print_char_loc` at the top left. -/
theorem keeps_printCharLoc (character attributeType : UInt8) :
    screen.Keeps (OnPage m) (fun _ => True) none
      (ConsoleProgram.printCharLoc character 0 0 attributeType) := by
  refine Resource.Keeps.bind (Q := (· = 0)) (.pure rfl) fun offset hoffset => ?_
  subst hoffset
  split
  · exact .pure trivial
  · refine (keeps_store ?_ _).bind fun _ _ => keeps_store ?_ _
    · unfold OffPage PGSIZE
      omega
    · unfold OffPage PGSIZE
      omega

theorem keeps_program (behind : Nat → UInt8) (c : ConsoleCall) :
    screen.Keeps (OnPage m) (fun _ => True) none (c.program behind) := by
  cases c with
  | char c => exact keeps_printChar c _
  | key scancode => exact keeps_printCharLoc _ _

end Keeps

section Interleavings

variable {ι : Type} [DecidableEq ι] {behind : Nat → UInt8} {start : Console}
  {calls : ι → List ConsoleCall} {s : Printers ι}

/-- Threads that print may tear the cursor into two, but as long as none is preempted between the
selection of a register of the cursor and the access to it, they never write outside of the page of
the screen. -/
theorem printing_stays_on_page (hstart : start.cursor < 2048)
    (run : (screenMachine behind start calls).Reach (Parties.Undisturbed screen) s) :
    (∀ a, OffPage a → s.shared.memory a = start.memory a) ∧ s.shared.cursor < 2048 := by
  have hhigh : (start.registers 14).toNat ≤ 7 := by
    unfold Console.cursor at hstart
    omega
  have hon : OnPage start.memory screen.free start :=
    ⟨fun _ _ => rfl, hhigh, fun _ h => absurd h.symm (Option.some_ne_none _)⟩
  refine Parties.invariant_of_undisturbed (P := fun u => (∀ a, OffPage a → u.memory a =
    start.memory a) ∧ u.cursor < 2048) ?_ (keeps_program behind) hon run
  · intro selected u hu
    have hle := hu.high
    have hlow : (u.registers 15).toNat < 2 ^ 8 := (u.registers 15).toNat_lt
    refine ⟨hu.memory, ?_⟩
    unfold Console.cursor
    omega

end Interleavings

instance (s : Printers Bool) (a : Turn Bool) : Decidable (Parties.Undisturbed screen s a) :=
  match a with
  | .begin _ => .isTrue trivial
  | .access i => inferInstanceAs (Decidable (∀ j, j ≠ i → s.holds j = none))

/-- One thread has read the low byte of the cursor when the other one prints its character, from
beginning to end. -/
def overlappingTurns : List (Turn Bool) :=
  .begin true :: List.replicate 2 (.access true) ++ .begin false ::
    List.replicate 10 (.access false) ++ List.replicate 8 (.access true)

theorem printing_stays_on_page_twoThreads : ∃ s : Printers Bool,
    s.begun = [(true, .char 97), (false, .char 98)] ∧ (∀ i, s.current i = .done ()) ∧
      (∀ a, OffPage a → s.shared.memory a = cell254.memory a) ∧ s.shared.cursor < 2048 := by
  obtain ⟨s, hs, hbegun, hdone⟩ : ∃ s, Parties.turns screen (ConsoleCall.program fun _ => 0)
      (Parties.Undisturbed screen) overlappingTurns twoThreads = some s ∧
      s.begun = [(true, .char 97), (false, .char 98)] ∧ s.current true = .done () ∧
      s.current false = .done () := ⟨_, rfl, rfl, rfl, rfl⟩
  have run := Parties.reach_turns (.start (twoThreads_start _)) overlappingTurns hs
  refine ⟨s, hbegun, fun i => ?_, printing_stays_on_page (by decide) run⟩
  cases i with
  | false => exact hdone.2
  | true => exact hdone.1

/-- One thread is preempted where it is about to write the low byte of its cursor, the other one
where it is about to read the high byte. -/
def tornTurns : List (Turn Bool) :=
  .begin true :: List.replicate 9 (.access true) ++ .begin false ::
    List.replicate 3 (.access false) ++ .access true :: List.replicate 2 (.access false)

/-- The low byte is written as the high byte, and the second thread takes it for its cursor: its
character goes 64 KiB behind the start of the screen. -/
theorem printing_leaves_page : ∃ s : Printers Bool,
    (screenMachine (fun _ => 0) cell254 twoCalls).Reachable s ∧
      OffPage (VIDEO_ADDRESS + 65532) ∧ s.shared.memory (VIDEO_ADDRESS + 65532) = 98 := by
  obtain ⟨s, hs, hbyte⟩ : ∃ s, Parties.turns screen (ConsoleCall.program fun _ => 0)
      (fun _ _ => True) tornTurns twoThreads = some s ∧
      s.shared.memory (VIDEO_ADDRESS + 65532) = 98 := ⟨_, rfl, rfl⟩
  refine ⟨s, Parties.reach_turns (.start (twoThreads_start _)) _ hs, ?_, hbyte⟩
  unfold OffPage PGSIZE
  omega

end NickOS3.Lib
