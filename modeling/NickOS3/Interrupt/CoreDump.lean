import NickOS3.Lib.Numeral
import NickOS3.Lib.Panic
import NickOS3.Thread.Instructions

/-!
# The core dump

`default_exception_handler` panics with the name of the exception and `state_dump` prints what
`idt_exc_wrapper` has saved. The screen can be read back to the saved values.
-/

namespace NickOS3.Interrupt

open Lib Thread

/-! ## The code -/

/-- A line of `state_dump`: a text, or a label and behind it a field of `exception_state` in some
base. -/
inductive DumpLine
  | text (label : List UInt8)
  | field (label : List UInt8) (offset base : Nat)

/-- `BASE_DEC` -/
def BASE_DEC : Nat := 10

/-- The lines of `state_dump`, with the offsets of the fields in `exception_state`. The fields
`idtr` and `gdtr` have 64 bits, and `itoa` takes the lower 32. -/
def dumpLines : List DumpLine :=
  [.text (literal "---CORE DUMP---"),
    .field (literal "IDTR:") 0 BASE_HEX,
    .field (literal "GDTR:") 8 BASE_HEX,
    .field (literal "GS:") 16 BASE_HEX,
    .field (literal "FS:") 20 BASE_HEX,
    .field (literal "ES:") 24 BASE_HEX,
    .field (literal "CR4:") 28 BASE_BIN,
    .field (literal "CR3:") 32 BASE_HEX,
    .field (literal "CR2:") 36 BASE_HEX,
    .field (literal "CR0:") 40 BASE_BIN,
    .field (literal "DS:") 44 BASE_HEX,
    .field (literal "INT_NUM:") 188 BASE_DEC,
    .field (literal "ERROR_CODE:") 192 BASE_BIN,
    .field (literal "EIP:") 196 BASE_HEX,
    .field (literal "CS:") 200 BASE_HEX,
    .field (literal "EFLAGS:") 204 BASE_HEX,
    .text (literal "IGNORE ESP/SS if in kernel mode"),
    .field (literal "ESP:") 208 BASE_HEX,
    .field (literal "SS:") 212 BASE_HEX]

/-- `println` of the label, and for a field `print` of what `itoa` leaves in the buffer `str`. -/
def printLine (rounds str state : Nat) (s : Console) : DumpLine → Option Console
  | .text label => some (println label s)
  | .field label offset base => do
      let s := println label s
      let (message, m) ← itoa (s.memory.word (state + offset)) str base s.memory
      print rounds message { s with memory := m }

/-- `state_dump`, up to `halt`. -/
def stateDump (rounds str state : Nat) (s : Console) : Option Console :=
  dumpLines.foldlM (printLine rounds str state) s

/-- `PANIC_EXC`, up to `halt`. -/
def panicExc (rounds message str state : Nat) (s : Console) : Option Console := do
  let s ← panicMessage rounds message s
  stateDump rounds str state s

/-- `default_exception_handler`; an `exception_definition` has 33 bytes. -/
def defaultExceptionHandler (rounds exceptions str state : Nat) (s : Console) : Option Console :=
  panicExc rounds (exceptions + 33 * s.memory.word (state + 188)) str state s

/-- The names in the table `exceptions`. -/
def exceptionNames : List (List UInt8) :=
  [literal "Divide-by-zero error", literal "Debug", literal "Non-maskable Interrupt",
    literal "Breakpoint", literal "Overflow", literal "Bound Range Exceeded",
    literal "Invalid Opcode", literal "Device Not Available", literal "Double Fault",
    literal "Coprocessor Segment Overrun", literal "Invalid TSS", literal "Segment Not Present",
    literal "Stack-Segment Fault", literal "General Protection Fault", literal "Page Fault",
    literal "Reserved", literal "x87 Floating-Point Exception", literal "Alignment Check",
    literal "Machine Check", literal "SIMD Floating-Point Exception",
    literal "Virtualization Exception", literal "Reserved", literal "Reserved",
    literal "Reserved", literal "Reserved", literal "Reserved", literal "Reserved",
    literal "Reserved", literal "Reserved", literal "Reserved", literal "Security Exception",
    literal "Reserved"]

/-! ## Numerals -/

/-- The string that `itoa` leaves. -/
def numeral (num base : Nat) : List UInt8 :=
  numeralPrefix num base ++
    if num = 0 then [charZero] else ((Nat.digits base num).map digitChar).reverse

/-- The number that a numeral denotes, its prefix being that of its base. -/
def readNumeral (base : Nat) : List UInt8 → Option Nat
  | 48 :: c :: rest =>
      if base = 16 ∧ c = 120 ∨ base = 2 ∧ c = 98 then readDigits base rest
      else readDigits base (48 :: c :: rest)
  | digits => readDigits base digits

section Numerals

variable {num base : Nat}

theorem itoa_writes (hnum : num < 2 ^ 32) (hlow : 2 ≤ base) (str : Nat) (before : Bytes) :
    ∃ after, itoa num str base before = some (str, after) ∧
      Wrote before after str (numeral num base ++ [0]) := by
  unfold numeral
  by_cases hzero : num = 0
  · subst hzero
    exact ⟨_, rfl, ((Wrote.nil before str).putChar charZero).putChar 0⟩
  · obtain ⟨m, hrun, hwrote⟩ := Wrote.digitLoop hlow before 32 num [] before hnum
      (Wrote.nil before str)
    have hdigits : (Nat.digits base num).map digitChar ≠ [] := by
      rw [ne_eq, List.map_eq_nil_iff]
      exact Nat.digits_ne_nil_iff_ne_zero.mpr hzero
    have hheld : Holding before str ((Nat.digits base num).map digitChar)
      (m, ((Nat.digits base num).map digitChar).length) := ⟨rfl, hwrote⟩
    have hprefixed : Holding before str _ (putPrefix str base _) := hheld.putPrefix hzero
    have hstring := hprefixed.reverse (List.append_ne_nil_of_left_ne_nil hdigits _)
    rw [List.reverse_append, List.reverse_reverse] at hstring
    rw [if_neg hzero]
    refine ⟨_, ?_, hstring⟩
    rw [itoa, if_neg hzero]
    simp only [Nat.not_lt_zero, decide_false, Bool.false_and, Bool.false_eq_true, if_false]
    change (digitLoop str base 33 num (before, 0)).bind _ = _
    rw [show digitLoop str base 33 num (before, 0) = _ from hrun]
    rfl

/-- The characters of a numeral are digits and letters. -/
theorem le_of_mem_numeral (hlow : 2 ≤ base) (hhigh : base ≤ 36) {c : UInt8}
    (hc : c ∈ numeral num base) : 48 ≤ c := by
  rcases List.mem_append.mp hc with hprefix | hdigit
  · rcases numeralPrefix_cases num base with h | h | h <;> rw [h] at hprefix
    · exact absurd hprefix List.not_mem_nil
    · simp only [List.mem_cons, List.not_mem_nil, or_false] at hprefix
      rcases hprefix with rfl | rfl <;> decide
    · simp only [List.mem_cons, List.not_mem_nil, or_false] at hprefix
      rcases hprefix with rfl | rfl <;> decide
  · split at hdigit
    · rw [List.mem_singleton.mp hdigit]
      decide
    · obtain ⟨d, hd, rfl⟩ := List.mem_map.mp (List.mem_reverse.mp hdigit)
      have hlt : d < base := Nat.digits_lt_base hlow hd
      have hall : ∀ d < 36, (48 : UInt8) ≤ digitChar d := by decide
      exact hall d (by omega)

theorem length_numeral_le (hnum : num < 2 ^ 32) (hlow : 2 ≤ base) :
    (numeral num base).length ≤ 34 := by
  have hprefix := length_numeralPrefix_le num base
  have hdigits := length_digits_le hnum hlow
  unfold numeral
  rw [List.length_append]
  split
  · rw [List.length_singleton]
    omega
  · rw [List.length_reverse, List.length_map]
    omega

/-- A numeral reads back as the number. -/
theorem readNumeral_numeral (hlow : 2 ≤ base) (hhigh : base ≤ 36) :
    readNumeral base (numeral num base) = some num := by
  by_cases hzero : num = 0
  · subst hzero
    have hvalue : digitValue charZero = some 0 := rfl
    have hpos : 0 < base := by omega
    change readDigits base [charZero] = some 0
    simp [readDigits, readDigit, hvalue, hpos]
  · have hdenotes := denotes_digits hzero hlow hhigh
    unfold numeral numeralPrefix
    rw [if_neg hzero, if_neg hzero]
    by_cases hhex : base = 16
    · subst hhex
      exact hdenotes.value
    · by_cases hbin : base = 2
      · subst hbin
        exact hdenotes.value
      · rw [if_neg hhex, if_neg hbin, List.nil_append]
        have hhead := hdenotes.noLeadingZero hzero
        have hvalue := hdenotes.value
        generalize ((Nat.digits base num).map digitChar).reverse = digits at hhead hvalue ⊢
        unfold readNumeral
        split
        · exact absurd rfl hhead
        · exact hvalue

end Numerals

/-! ## One line -/

/-- What a line shows, with the fields as memory holds them. -/
def DumpLine.shown (m : Bytes) (state : Nat) : DumpLine → List UInt8
  | .text label => label
  | .field label offset base => label ++ numeral (m.word (state + offset)) base

/-- The label fits, the field lies in the state and `itoa` knows the base. -/
def DumpLine.Fits : DumpLine → Prop
  | .text label => FitsFrom 0 label
  | .field label offset base => FitsFrom 34 label ∧ offset + 4 ≤ 216 ∧ 2 ≤ base ∧ base ≤ 36

/-- The buffer and the saved state lie beside the screen and apart from each other. -/
structure DumpPlaces (str state : Nat) : Prop where
  buffer : ∀ i < 128, OffScreen (str + i)
  saved : ∀ i < 216, OffScreen (state + i)
  apart : str + 128 ≤ state ∨ state + 216 ≤ str

/-- Beside the screen nothing has changed but the buffer. -/
def KeepsBut (str : Nat) (s s' : Console) : Prop :=
  ∀ x, OffScreen x → ¬ (str ≤ x ∧ x < str + 128) → s'.memory x = s.memory x

section Lines

variable {str state : Nat} {s s' s'' : Console} {t : Terminal}

theorem KeepsBut.trans (h : KeepsBut str s s') (h' : KeepsBut str s' s'') : KeepsBut str s s'' :=
  fun x hx hout => (h' x hx hout).trans (h x hx hout)

/-- The saved state is kept. -/
theorem KeepsBut.word (h : KeepsBut str s s') (hp : DumpPlaces str state) {offset : Nat}
    (hoffset : offset + 4 ≤ 216) : s'.memory.word (state + offset) =
      s.memory.word (state + offset) := by
  have hapart := hp.apart
  refine word_congr fun x hlow hhigh => h x ?_ (by omega)
  obtain ⟨i, rfl⟩ := Nat.exists_eq_add_of_le (show state ≤ x by omega)
  exact hp.saved i (by omega)

theorem DumpLine.shown_fits (m : Bytes) (state : Nat) {line : DumpLine} (h : line.Fits) :
    FitsFrom 0 (line.shown m state) := by
  cases line with
  | text label => exact h
  | field label offset base =>
      obtain ⟨hlabel, -, hlow, hhigh⟩ := h
      have hinside := hlabel.inside
      have hlength := length_numeral_le (word_lt m (state + offset)) hlow
      refine ⟨?_, ?_⟩
      · rw [DumpLine.shown, List.mem_append, not_or]
        refine ⟨hlabel.noNewline, fun hmem => ?_⟩
        exact absurd (le_of_mem_numeral hlow hhigh hmem) (by decide)
      · rw [DumpLine.shown, List.length_append]
        omega

/-- What `itoa` has left in the buffer is a message. -/
theorem messageAt_of_wrote {before : Bytes} {text : List UInt8}
    (hstr : ∀ i < 128, OffScreen (str + i))
    (hwrote : Wrote before s.memory str (text ++ [0])) (hnul : 0 ∉ text)
    (hlength : text.length < 128) : s.MessageAt str text := by
  refine ⟨fun i c hc => ?_, ?_, hnul, fun i hi => hstr i (by omega)⟩
  · have hi : i < text.length := (List.getElem?_eq_some_iff.mp hc).1
    refine hwrote.chars i c ?_
    rw [List.getElem?_append_left hi]
    exact hc
  · refine hwrote.chars text.length 0 ?_
    rw [List.getElem?_append_right (Nat.le_refl _), Nat.sub_self]
    rfl

/-- A line is printed below the cursor. -/
theorem printLine_run (h : s.Shows t) (hp : DumpPlaces str state) {line : DumpLine}
    (hline : line.Fits) :
    ∃ s', (∀ rounds, 34 < rounds → printLine rounds str state s line = some s') ∧
      s'.Shows (t.println (line.shown s.memory state)) ∧ KeepsBut str s s' := by
  cases line with
  | text label =>
      exact ⟨_, fun _ _ => rfl, h.println label, fun x hx _ => println_offScreen h label hx⟩
  | field label offset base =>
      obtain ⟨-, hoffset, hlow, hhigh⟩ := hline
      have hshown := h.println label
      have hkept : KeepsBut str s (println label s) :=
        fun x hx _ => println_offScreen h label hx
      have hword := hkept.word hp hoffset
      have hnum := word_lt s.memory (state + offset)
      have hlength := length_numeral_le hnum hlow
      obtain ⟨after, hitoa, hwrote⟩ :=
        itoa_writes hnum hlow str (println label s).memory
      have hframe : ∀ x, ¬ (str ≤ x ∧ x < str + 128) →
          after x = (println label s).memory x := by
        intro x hx
        refine hwrote.frame x ?_
        rw [List.length_append, List.length_singleton]
        omega
      have hbuffered : ({ println label s with memory := after } : Console).Shows
          (t.println label) := by
        refine hshown.of_onScreen rfl fun x hx => hframe x fun hin => hx ?_
        obtain ⟨i, rfl⟩ := Nat.exists_eq_add_of_le hin.1
        exact hp.buffer i (by omega)
      have hnul : 0 ∉ numeral (s.memory.word (state + offset)) base :=
        fun hmem => absurd (le_of_mem_numeral hlow hhigh hmem) (by decide)
      have hmessage := messageAt_of_wrote (s := { println label s with memory := after })
        hp.buffer hwrote hnul (by omega)
      have hprint : ∀ rounds, 34 < rounds →
          printLine rounds str state s (.field label offset base) =
            some (printChars (numeral (s.memory.word (state + offset)) base)
              { println label s with memory := after }) := by
        intro rounds hrounds
        unfold printLine
        dsimp only
        rw [hword, hitoa]
        exact hbuffered.print hmessage (by omega)
      refine ⟨_, hprint, ?_, fun x hx hout => ?_⟩
      · have hchars := hbuffered.printChars (numeral (s.memory.word (state + offset)) base)
        rw [DumpLine.shown, Terminal.println, Terminal.writes_append]
        exact hchars
      · rw [printChars_offScreen hbuffered _ hx]
        exact (hframe x hout).trans (hkept x hx hout)

/-- Lines are printed below one another. -/
theorem printLines_run (m : Bytes) (hp : DumpPlaces str state) (lines : List DumpLine)
    (hlines : ∀ line ∈ lines, line.Fits) :
    ∀ {s : Console} {t : Terminal}, s.Shows t →
      (∀ i < 216, s.memory (state + i) = m (state + i)) →
      ∃ s', (∀ rounds, 34 < rounds →
          lines.foldlM (printLine rounds str state) s = some s') ∧
        s'.Shows (t.printlns (lines.map (·.shown m state))) ∧ KeepsBut str s s' := by
  induction lines with
  | nil => exact fun {s} {t} h _ => ⟨s, fun _ _ => rfl, h, fun _ _ _ => rfl⟩
  | cons line lines ih =>
      intro s t h hm
      have hline := hlines line List.mem_cons_self
      obtain ⟨s₁, hrun₁, hshows₁, hkept₁⟩ := printLine_run h hp hline
      have hm₁ : ∀ i < 216, s₁.memory (state + i) = m (state + i) := by
        intro i hi
        have hapart := hp.apart
        rw [hkept₁ _ (hp.saved i hi) (by omega), hm i hi]
      have hshown : line.shown s.memory state = line.shown m state := by
        cases line with
        | text label => rfl
        | field label offset base =>
            have hoffset := hline.2.1
            have hword : s.memory.word (state + offset) = m.word (state + offset) := by
              refine word_congr fun x hlow hhigh => ?_
              obtain ⟨i, rfl⟩ := Nat.exists_eq_add_of_le (show state ≤ x by omega)
              exact hm i (by omega)
            rw [DumpLine.shown, DumpLine.shown, hword]
      rw [hshown] at hshows₁
      obtain ⟨s₂, hrun₂, hshows₂, hkept₂⟩ :=
        ih (fun l hl => hlines l (List.mem_cons_of_mem _ hl)) hshows₁ hm₁
      refine ⟨s₂, fun rounds hrounds => ?_, hshows₂, hkept₁.trans hkept₂⟩
      rw [List.foldlM_cons, hrun₁ rounds hrounds]
      exact hrun₂ rounds hrounds

end Lines

/-! ## The whole screen -/

theorem dumpLines_fit : ∀ line ∈ dumpLines, line.Fits := by
  intro line hline
  simp only [dumpLines, List.mem_cons, List.not_mem_nil, or_false] at hline
  rcases hline with rfl | rfl | rfl | rfl | rfl | rfl | rfl | rfl | rfl | rfl | rfl | rfl | rfl |
    rfl | rfl | rfl | rfl | rfl | rfl
  all_goals first
    | exact ⟨⟨by decide, by decide⟩, by decide, by decide, by decide⟩
    | exact ⟨by decide, by decide⟩

/-- The names of the exceptions are in the table. -/
def TableAt (exceptions : Nat) (s : Console) : Prop :=
  ∀ n name, exceptionNames[n]? = some name → s.MessageAt (exceptions + 33 * n) name

theorem exceptionNames_fit {n : Nat} {name : List UInt8} (h : exceptionNames[n]? = some name) :
    FitsFrom 0 name ∧ name.length < 34 := by
  have hall : ∀ name ∈ exceptionNames, newlineChar ∉ name ∧ name.length < 34 := by decide
  obtain ⟨hnew, hlength⟩ := hall name (List.mem_of_getElem? h)
  exact ⟨⟨hnew, by omega⟩, hlength⟩

/-- The lines of the screen of an exception. -/
def exceptionLines (m : Bytes) (state : Nat) (name : List UInt8) : List (List UInt8) :=
  panicLines name ++ dumpLines.map (·.shown m state)

theorem length_exceptionLines (m : Bytes) (state : Nat) (name : List UInt8) :
    (exceptionLines m state name).length = 22 := by
  rw [exceptionLines, List.length_append, List.length_map]
  rfl

theorem exceptionLines_fit (m : Bytes) (state : Nat) {name : List UInt8} (h : FitsFrom 0 name) :
    ∀ line ∈ exceptionLines m state name, FitsFrom 0 line := by
  intro line hline
  rcases List.mem_append.mp hline with hpanic | hdump
  · exact panicLines_fit h line hpanic
  · obtain ⟨dump, hmem, rfl⟩ := List.mem_map.mp hdump
    exact dump.shown_fits m state (dumpLines_fit dump hmem)

/-- `PANIC_EXC` with a message that is short enough for the rounds. -/
theorem panicExc_run (s : Console) {message str state : Nat} {name : List UInt8}
    (hmessage : s.MessageAt message name) (hlength : name.length ≤ 34)
    (hp : DumpPlaces str state) :
    ∃ s', (∀ rounds, 34 < rounds → panicExc rounds message str state s = some s') ∧
      s'.Shows (panicTerminal.printlns (exceptionLines s.memory state name)) ∧
      KeepsBut str s s' := by
  obtain ⟨s₁, hrun₁, hshows₁, hkept₁⟩ := panicMessage_run s hmessage
  obtain ⟨s₂, hrun₂, hshows₂, hkept₂⟩ := printLines_run s.memory hp dumpLines dumpLines_fit
    hshows₁ fun i hi => hkept₁ _ (hp.saved i hi)
  rw [← Terminal.printlns_append] at hshows₂
  refine ⟨s₂, fun rounds hrounds => ?_, hshows₂, fun x hx hout => ?_⟩
  · rw [panicExc, hrun₁ rounds (by omega), Option.bind_eq_bind, Option.bind_some, stateDump]
    exact hrun₂ rounds hrounds
  · exact (hkept₂ x hx hout).trans (hkept₁ x hx)

/-- `default_exception_handler`: the screen lists the name of the exception and the saved state. -/
theorem defaultExceptionHandler_run (s : Console) {exceptions str state : Nat} {name : List UInt8}
    (htable : TableAt exceptions s) (hp : DumpPlaces str state)
    (hname : exceptionNames[s.memory.word (state + 188)]? = some name) :
    ∃ s' t', (∀ rounds, 34 < rounds →
        defaultExceptionHandler rounds exceptions str state s = some s') ∧ s'.Shows t' ∧
      Listing panicTerminal ((exceptionLines s.memory state name).map white) t' ∧
      KeepsBut str s s' := by
  obtain ⟨hfits, hlength⟩ := exceptionNames_fit hname
  obtain ⟨s', hrun, hshows, hkept⟩ := panicExc_run s (htable _ _ hname) (by omega) hp
  have hrows : panicTerminal.row.val + (exceptionLines s.memory state name).length < 25 := by
    rw [length_exceptionLines]
    decide
  exact ⟨s', _, hrun, hshows, .lines _ hrows (exceptionLines_fit _ _ hfits), hkept⟩

/-- Whatever has been on the screen, an exception leaves a blue screen with its name and the fields
of the saved state that `state_dump` prints, and each numeral reads back as the word that is
printed. -/
theorem exception_screen (s : Console) {exceptions str state : Nat} {name : List UInt8}
    (htable : TableAt exceptions s) (hp : DumpPlaces str state)
    (hname : exceptionNames[s.memory.word (state + 188)]? = some name) :
    (∃ s' t', (∀ rounds, 34 < rounds →
        defaultExceptionHandler rounds exceptions str state s = some s') ∧ s'.Shows t' ∧
      Listing panicTerminal ((exceptionLines s.memory state name).map white) t' ∧
      KeepsBut str s s') ∧
    ∀ label offset base, .field label offset base ∈ dumpLines →
      readNumeral base (((DumpLine.field label offset base).shown s.memory state).drop
        label.length) = some (s.memory.word (state + offset)) := by
  refine ⟨defaultExceptionHandler_run s htable hp hname, fun label offset base hfield => ?_⟩
  obtain ⟨-, -, hlow, hhigh⟩ := dumpLines_fit _ hfield
  rw [DumpLine.shown, List.drop_left]
  exact readNumeral_numeral hlow hhigh

/-- The names one behind the other, at address 0, in memory that is empty elsewhere. -/
def exceptionTable : Bytes :=
  fun a => ((exceptionNames[a / 33]?).bind (·[a % 33]?)).getD 0

/-- A machine that takes a divide error: the table lies at address 0, the buffer and the saved
state lie behind it. -/
def divideError : Console where
  memory := exceptionTable
  selected := 0
  registers _ := 0

theorem exceptionTable_char {n i : Nat} {name : List UInt8} (h : exceptionNames[n]? = some name)
    (hi : i < 33) : exceptionTable (33 * n + i) = (name[i]?).getD 0 := by
  have hdiv : (33 * n + i) / 33 = n := by omega
  have hmod : (33 * n + i) % 33 = i := by omega
  rw [exceptionTable, hdiv, hmod, h]
  rfl

theorem divideError_table : TableAt 0 divideError := by
  intro n name hname
  have hn : n < 32 := (List.getElem?_eq_some_iff.mp hname).1
  have hall : ∀ name ∈ exceptionNames, name.length < 33 ∧ 0 ∉ name := by decide
  obtain ⟨hlength, hnul⟩ := hall name (List.mem_of_getElem? hname)
  refine ⟨fun i c hc => ?_, ?_, hnul,
    fun i hi => Or.inl (show 0 + 33 * n + i < 753664 by omega)⟩
  · have hi : i < name.length := (List.getElem?_eq_some_iff.mp hc).1
    rw [Nat.zero_add]
    change exceptionTable (33 * n + i) = c
    rw [exceptionTable_char hname (by omega), hc]
    rfl
  · rw [Nat.zero_add]
    change exceptionTable (33 * n + name.length) = 0
    rw [exceptionTable_char hname hlength, List.getElem?_eq_none (Nat.le_refl _)]
    rfl

theorem exception_screen_divideError :
    (∃ s' t', (∀ rounds, 34 < rounds →
        defaultExceptionHandler rounds 0 2048 4096 divideError = some s') ∧ s'.Shows t' ∧
      Listing panicTerminal ((exceptionLines divideError.memory 4096
        (literal "Divide-by-zero error")).map white) t' ∧ KeepsBut 2048 divideError s') ∧
    ∀ label offset base, .field label offset base ∈ dumpLines →
      readNumeral base (((DumpLine.field label offset base).shown divideError.memory 4096).drop
        label.length) = some (divideError.memory.word (4096 + offset)) := by
  refine exception_screen divideError divideError_table ?_ ?_
  · exact ⟨fun i _ => Or.inl (show 2048 + i < 753664 by omega),
      fun i _ => Or.inl (show 4096 + i < 753664 by omega), Or.inl (by decide)⟩
  · have hword : divideError.memory.word (4096 + 188) = 0 := by decide
    rw [hword]
    rfl

end NickOS3.Interrupt
