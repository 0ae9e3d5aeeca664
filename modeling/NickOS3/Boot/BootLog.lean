import NickOS3.Lib.Rows
import NickOS3.Thread.Instructions

/-!
# The boot log

`print_attempt` opens a line with empty brackets and pushes its row, and `print_ok` and
`print_fail` pop a row and write into the brackets there. An attempt can make others before
it ends, as deep as `attempt_stack` has room.
-/

namespace NickOS3.Boot

open Lib Thread

/-! ## The code -/

/-- Where the linker puts `attempt_stack` and `stack_idx`. -/
structure AttemptStack where
  attemptStack : Nat
  stackIdx : Nat
  fits : attemptStack + 512 ≤ 4294967296
  apart : stackIdx + 4 ≤ attemptStack ∨ attemptStack + 512 ≤ stackIdx
  offScreen : ∀ x, attemptStack ≤ x ∧ x < attemptStack + 512 ∨ stackIdx ≤ x ∧ x < stackIdx + 4 →
    OffScreen x

namespace AttemptStack

variable (vars : AttemptStack)

/-- `attempt_stack[stack_idx]` -/
def slot (m : Bytes) : Nat := u32 (vars.attemptStack + 4 * m.word vars.stackIdx)

def pushRow (s : Console) : Console :=
  let (cursor, s) := getCursor s
  let m := storeWord (vars.slot s.memory) (cursor / (2 * MAX_COLS)) s.memory
  { s with memory := storeWord vars.stackIdx (u32 (m.word vars.stackIdx + 1)) m }

def popRow (s : Console) : Int × Console :=
  let m := storeWord vars.stackIdx (u32 (s.memory.word vars.stackIdx + 4294967295)) s.memory
  (signed (m.word (vars.slot m)), { s with memory := m })

def brackets : List UInt8 := literal "[    ] "

def printAttempt (message : List UInt8) (s : Console) : Console :=
  printChars message (vars.pushRow (println brackets s))

def printOk (s : Console) : Console :=
  let (row, s) := vars.popRow s
  let s := printCharLoc 79 2 row GREEN_ON_BLACK s
  printCharLoc 75 3 row GREEN_ON_BLACK s

def printFail (s : Console) : Console :=
  let (row, s) := vars.popRow s
  let s := printCharLoc 70 1 row RED_ON_BLACK s
  let s := printCharLoc 65 2 row RED_ON_BLACK s
  let s := printCharLoc 73 3 row RED_ON_BLACK s
  printCharLoc 76 4 row RED_ON_BLACK s

def printResult (ok : Bool) (s : Console) : Console :=
  if ok then vars.printOk s else vars.printFail s

end AttemptStack

/-- What is printed during the boot: lines, and attempts with what is printed in them. -/
inductive BootLog
  | done
  | line (text : List UInt8) (rest : BootLog)
  | attempt (text : List UInt8) (body : BootLog) (ok : Bool) (rest : BootLog)

namespace BootLog

def run (vars : AttemptStack) : BootLog → Console → Console
  | done, s => s
  | line text rest, s => rest.run vars (println text s)
  | attempt text body ok rest, s =>
      rest.run vars (vars.printResult ok (body.run vars (vars.printAttempt text s)))

/-! ## What is meant -/

/-- The brackets with the result in them. -/
def result : Bool → List Cell
  | true => white (literal "[ ") ++ (literal "OK").map (⟨·, GREEN_ON_BLACK⟩) ++
      white (literal " ] ")
  | false => white (literal "[") ++ (literal "FAIL").map (⟨·, RED_ON_BLACK⟩) ++
      white (literal "] ")

/-- The rows of a log: each attempt has its own result in its brackets. -/
def rows : BootLog → List (List Cell)
  | done => []
  | line text rest => white text :: rest.rows
  | attempt text body ok rest => (result ok ++ white text) :: (body.rows ++ rest.rows)

/-- How many attempts are open at the same time. -/
def depth : BootLog → Nat
  | done => 0
  | line _ rest => rest.depth
  | attempt _ body _ rest => max (body.depth + 1) rest.depth

/-- Every text fits in its row. -/
def Fits : BootLog → Prop
  | done => True
  | line text rest => FitsFrom 0 text ∧ rest.Fits
  | attempt text body _ rest => FitsFrom 7 text ∧ body.Fits ∧ rest.Fits

/-- Outside of the screen nothing has changed but slots of the stack from `idx` on. -/
def Keeps (vars : AttemptStack) (idx : Nat) (s s' : Console) : Prop :=
  ∀ x, OffScreen x → ¬ (vars.attemptStack + 4 * idx ≤ x ∧ x < vars.attemptStack + 512) →
    s'.memory x = s.memory x

end BootLog

/-! ## The stack of rows -/

section Stack

variable {vars : AttemptStack} {s : Console} {t : Terminal} {idx : Nat}

theorem slot_eq {m : Bytes} (hidx : m.word vars.stackIdx = idx) (hroom : idx < 128) :
    vars.slot m = vars.attemptStack + 4 * idx := by
  have hfits := vars.fits
  rw [AttemptStack.slot, hidx]
  exact u32_of_lt (by omega)

/-- A cell of the screen is neither in the stack nor its index. -/
theorem AttemptStack.outside (vars : AttemptStack) {x : Nat} (hx : ¬ OffScreen x) :
    ¬ (vars.attemptStack ≤ x ∧ x < vars.attemptStack + 512) ∧
      ¬ (vars.stackIdx ≤ x ∧ x < vars.stackIdx + 4) :=
  ⟨fun h => hx (vars.offScreen x (.inl h)), fun h => hx (vars.offScreen x (.inr h))⟩

/-- `push_row` puts the row of the cursor in the next slot. -/
theorem pushRow_run (h : s.Shows t) (hidx : s.memory.word vars.stackIdx = idx)
    (hroom : idx < 128) :
    (vars.pushRow s).Shows t ∧
      (vars.pushRow s).memory.word vars.stackIdx = idx + 1 ∧
      (vars.pushRow s).memory.word (vars.attemptStack + 4 * idx) = t.row.val ∧
      ∀ x, ¬ (vars.attemptStack + 4 * idx ≤ x ∧ x < vars.attemptStack + 4 * idx + 4) →
        ¬ (vars.stackIdx ≤ x ∧ x < vars.stackIdx + 4) →
        (vars.pushRow s).memory x = s.memory x := by
  have hrow := t.row.isLt
  have hcol := t.col.isLt
  have hapart := vars.apart
  have hcursor := h.cursor
  have hindex : (getCursor s).1 / (2 * MAX_COLS) = t.row.val := by
    rw [getCursor_offset s h.cursor_lt, hcursor, MAX_COLS]
    omega
  have hmemory : (vars.pushRow s).memory =
      storeWord vars.stackIdx (idx + 1)
        (storeWord (vars.attemptStack + 4 * idx) t.row.val s.memory) := by
    have hsame : (getCursor s).2.memory = s.memory := rfl
    have hslot : (storeWord (vars.attemptStack + 4 * idx) t.row.val s.memory).word vars.stackIdx =
        idx := (word_storeWord_ne (by omega)).trans hidx
    unfold AttemptStack.pushRow
    dsimp only
    rw [hindex, hsame, slot_eq hidx hroom, hslot, u32_of_lt (by omega)]
  refine ⟨h.of_onScreen rfl fun x hx => ?_, ?_, ?_, fun x hslot hstack => ?_⟩
  · have hout := vars.outside hx
    rw [hmemory, storeWord_of_outside (by omega), storeWord_of_outside (by omega)]
  · rw [hmemory]
    exact word_storeWord (by omega)
  · rw [hmemory, word_storeWord_ne (by omega)]
    exact word_storeWord (by omega)
  · rw [hmemory, storeWord_of_outside (by omega), storeWord_of_outside (by omega)]

/-- `pop_row` gives the row in the last slot back. -/
theorem popRow_run (h : s.Shows t) (hidx : s.memory.word vars.stackIdx = idx + 1)
    (hroom : idx < 128) {row : Nat}
    (hslot : s.memory.word (vars.attemptStack + 4 * idx) = row) (hrow : row < 2147483648) :
    (vars.popRow s).1 = Int.ofNat row ∧ (vars.popRow s).2.Shows t ∧
      (vars.popRow s).2.memory.word vars.stackIdx = idx ∧
      ∀ x, ¬ (vars.stackIdx ≤ x ∧ x < vars.stackIdx + 4) →
        (vars.popRow s).2.memory x = s.memory x := by
  have hapart := vars.apart
  have hdown : u32 (idx + 1 + 4294967295) = idx := by
    unfold u32
    omega
  have hmemory : (vars.popRow s).2.memory = storeWord vars.stackIdx idx s.memory := by
    unfold AttemptStack.popRow
    dsimp only
    rw [hidx, hdown]
  have hword : (storeWord vars.stackIdx idx s.memory).word vars.stackIdx = idx :=
    word_storeWord (by omega)
  refine ⟨?_, h.of_onScreen rfl fun x hx => ?_, ?_, fun x hx => ?_⟩
  · unfold AttemptStack.popRow
    dsimp only
    rw [hidx, hdown, slot_eq hword hroom, word_storeWord_ne (by omega), hslot,
      signed_of_lt hrow]
    rfl
  · have hout := (vars.outside hx).2
    rw [hmemory, storeWord_of_outside (by omega)]
  · rw [hmemory]
    exact hword
  · rw [hmemory, storeWord_of_outside (by omega)]

end Stack

/-! ## The result of an attempt -/

section Result

variable {vars : AttemptStack} {s : Console} {t t' : Terminal} {idx : Nat}

/-- The columns and characters of a result. -/
def marks : Bool → List (Fin 80 × UInt8)
  | true => [(⟨2, by decide⟩, 79), (⟨3, by decide⟩, 75)]
  | false =>
      [(⟨1, by decide⟩, 70), (⟨2, by decide⟩, 65), (⟨3, by decide⟩, 73), (⟨4, by decide⟩, 76)]

def markColour : Bool → UInt8
  | true => GREEN_ON_BLACK
  | false => RED_ON_BLACK

/-- Characters are written into a row. -/
def markAll (ms : List (Fin 80 × UInt8)) (attr : UInt8) (r : Fin 25) (t : Terminal) : Terminal :=
  ms.foldl (fun t p => t.set r p.1 ⟨p.2, attr⟩) t

theorem printResult_eq (ok : Bool) : vars.printResult ok s =
    (marks ok).foldl (fun s' p => printCharLoc p.2 (Int.ofNat p.1) (vars.popRow s).1
      (markColour ok) s') (vars.popRow s).2 := by
  cases ok <;> rfl

theorem Listing.markAll {attr : UInt8} (ms : List (Fin 80 × UInt8)) {cells : List Cell}
    {rows : List (List Cell)} {t' : Terminal} (h : Listing t (cells :: rows) t')
    (hrow : t.row.val + 1 < 25) (hms : ∀ p ∈ ms, p.1.val < cells.length) :
    Listing t (ms.foldl (fun cells p => cells.set p.1 ⟨p.2, attr⟩) cells :: rows)
      (Boot.markAll ms attr ⟨t.row.val + 1, hrow⟩ t') := by
  induction ms generalizing cells t' with
  | nil => exact h
  | cons p ms ih =>
      refine ih (h.set hrow (hms p List.mem_cons_self) ⟨p.2, attr⟩) fun q hq => ?_
      rw [List.length_set]
      exact hms q (List.mem_cons_of_mem _ hq)

/-- The result comes into the brackets. -/
theorem listing_result {text : List UInt8} {rows : List (List Cell)}
    (h : Listing t (white (AttemptStack.brackets ++ text) :: rows) t')
    (hrow : t.row.val + 1 < 25) (ok : Bool) :
    Listing t ((BootLog.result ok ++ white text) :: rows)
      (markAll (marks ok) (markColour ok) ⟨t.row.val + 1, hrow⟩ t') := by
  have hlength : ∀ p ∈ marks ok, p.1.val < (white (AttemptStack.brackets ++ text)).length := by
    intro p hp
    have hp7 : p.1.val < 7 := by
      cases ok <;> simp only [marks, List.mem_cons, List.not_mem_nil, or_false] at hp
      · rcases hp with rfl | rfl | rfl | rfl <;> decide
      · rcases hp with rfl | rfl <;> decide
    have hseven : AttemptStack.brackets.length = 7 := rfl
    rw [length_white, List.length_append, hseven]
    omega
  have hmarked : Listing t _ (markAll (marks ok) (markColour ok) ⟨t.row.val + 1, hrow⟩ t') :=
    Listing.markAll (marks ok) h hrow hlength
  cases ok <;> exact hmarked

theorem printMarks_run {attr : UInt8} (hattr : attr ≠ 0) (row : Fin 25)
    (ms : List (Fin 80 × UInt8)) (hms : ∀ p ∈ ms, p.2 ≠ newlineChar) {s : Console} {t : Terminal}
    (h : s.Shows t) :
    (ms.foldl (fun s p => printCharLoc p.2 (Int.ofNat p.1) (Int.ofNat row) attr s) s).Shows
        (markAll ms attr row t) ∧
      ∀ x, OffScreen x → (ms.foldl (fun s p =>
        printCharLoc p.2 (Int.ofNat p.1) (Int.ofNat row) attr s) s).memory x = s.memory x := by
  induction ms generalizing s t with
  | nil => exact ⟨h, fun _ _ => rfl⟩
  | cons p ms ih =>
      have hp : p.2 ≠ newlineChar := hms p List.mem_cons_self
      obtain ⟨hshows, hrest⟩ := ih (fun q hq => hms q (List.mem_cons_of_mem _ hq))
        (h.printCharLoc hp p.1 row hattr)
      refine ⟨hshows, fun x hx => (hrest x hx).trans ?_⟩
      exact printCharLoc_offScreen hp p.1.isLt row.isLt hattr s hx

/-- `print_ok` and `print_fail` write into the row that was pushed last. -/
theorem printResult_run (h : s.Shows t) (hidx : s.memory.word vars.stackIdx = idx + 1)
    (hroom : idx < 128) {row : Fin 25}
    (hslot : s.memory.word (vars.attemptStack + 4 * idx) = row.val) (ok : Bool) :
    (vars.printResult ok s).Shows (markAll (marks ok) (markColour ok) row t) ∧
      (vars.printResult ok s).memory.word vars.stackIdx = idx ∧
      ∀ x, OffScreen x → ¬ (vars.stackIdx ≤ x ∧ x < vars.stackIdx + 4) →
        (vars.printResult ok s).memory x = s.memory x := by
  obtain ⟨hpop, hshows, hindex, hkept⟩ := popRow_run h hidx hroom hslot (by omega)
  have hall : (marks ok).all (fun p => decide (p.2 ≠ newlineChar)) = true := by cases ok <;> rfl
  have hms : ∀ p ∈ marks ok, p.2 ≠ newlineChar :=
    fun p hp => of_decide_eq_true (List.all_eq_true.mp hall p hp)
  have hattr : markColour ok ≠ 0 := by cases ok <;> decide
  obtain ⟨hmarked, hoff⟩ := printMarks_run hattr row (marks ok) hms hshows
  rw [printResult_eq, hpop]
  refine ⟨hmarked, ?_, fun x hx hstack => (hoff x hx).trans (hkept x hstack)⟩
  rw [← hindex]
  exact word_congr fun x hlow hhigh => hoff x (vars.offScreen x (.inr ⟨hlow, hhigh⟩))

end Result

/-! ## The whole log -/

section Run

variable {vars : AttemptStack} {s s' s'' : Console} {t : Terminal} {idx : Nat}

theorem BootLog.Keeps.trans (h : Keeps vars idx s s') (h' : Keeps vars idx s' s'') :
    Keeps vars idx s s'' := fun x hx hslot => (h' x hx hslot).trans (h x hx hslot)

theorem BootLog.Keeps.word (h : Keeps vars idx s s') (hidx : idx ≤ 128) :
    s'.memory.word vars.stackIdx = s.memory.word vars.stackIdx := by
  have hapart := vars.apart
  refine word_congr fun x hlow hhigh => h x (vars.offScreen x (.inr ⟨hlow, hhigh⟩)) ?_
  omega

/-- `print_attempt` opens a row and pushes it. -/
theorem printAttempt_run (h : s.Shows t) (hidx : s.memory.word vars.stackIdx = idx)
    (hroom : idx < 128) {text : List UInt8} (hrow : t.row.val + 1 < 25)
    (hfits : FitsFrom 7 text) :
    ∃ t', (vars.printAttempt text s).Shows t' ∧
      Listing t [white (AttemptStack.brackets ++ text)] t' ∧
      (vars.printAttempt text s).memory.word vars.stackIdx = idx + 1 ∧
      (vars.printAttempt text s).memory.word (vars.attemptStack + 4 * idx) = t.row.val + 1 ∧
      ∀ x, OffScreen x → ¬ (vars.attemptStack + 4 * idx ≤ x ∧ x < vars.attemptStack + 512) →
        ¬ (vars.stackIdx ≤ x ∧ x < vars.stackIdx + 4) →
        (vars.printAttempt text s).memory x = s.memory x := by
  have hopen := h.println AttemptStack.brackets
  have hoff : ∀ x, OffScreen x → (println AttemptStack.brackets s).memory x = s.memory x :=
    fun x hx => println_offScreen h _ hx
  have hbracket : FitsFrom 0 AttemptStack.brackets := ⟨by decide, by decide⟩
  have hopened := Listing.line hrow hbracket
  have hline : Listing t [white (AttemptStack.brackets ++ text)]
      ((t.println AttemptStack.brackets).writes text) := by
    rw [Terminal.println, ← Terminal.writes_append]
    refine Listing.line hrow ⟨?_, ?_⟩
    · rw [List.mem_append, not_or]
      exact ⟨hbracket.noNewline, hfits.noNewline⟩
    · have hinside := hfits.inside
      have hseven : AttemptStack.brackets.length = 7 := rfl
      rw [List.length_append, hseven]
      omega
  have hword : (println AttemptStack.brackets s).memory.word vars.stackIdx = idx := by
    rw [← hidx]
    exact word_congr fun x hlow hhigh => hoff x (vars.offScreen x (.inr ⟨hlow, hhigh⟩))
  obtain ⟨hpushed, hindex, hslot, hkept⟩ := pushRow_run hopen hword hroom
  have htext : ∀ x, OffScreen x → (vars.printAttempt text s).memory x =
      (vars.pushRow (println AttemptStack.brackets s)).memory x := by
    intro x hx
    rw [AttemptStack.printAttempt]
    exact printChars_offScreen hpushed text hx
  refine ⟨_, hpushed.printChars text, hline, ?_, ?_, fun x hx hstack hidx => ?_⟩
  · rw [← hindex]
    exact word_congr fun x hlow hhigh => htext x (vars.offScreen x (.inr ⟨hlow, hhigh⟩))
  · have hrowOpen := hopened.row
    rw [List.length_singleton] at hrowOpen
    rw [← hrowOpen, ← hslot]
    exact word_congr fun x hlow hhigh => htext x (vars.offScreen x (.inl ⟨by omega, by omega⟩))
  · rw [htext x hx, hkept x (by omega) hidx, hoff x hx]

end Run

/-- A log that fits on the screen, with no more attempts open than `attempt_stack` has room for,
is shown row by row: every result stands in the brackets of its own attempt. -/
theorem boot_log_shown {vars : AttemptStack} (log : BootLog) {s : Console} {t : Terminal}
    {idx : Nat} (h : s.Shows t) (hidx : s.memory.word vars.stackIdx = idx)
    (hdepth : idx + log.depth ≤ 128) (hfits : log.Fits)
    (hrows : t.row.val + log.rows.length < 25) :
    ∃ t', (log.run vars s).Shows t' ∧ Listing t log.rows t' ∧
      BootLog.Keeps vars idx s (log.run vars s) := by
  induction log generalizing s t idx with
  | done => exact ⟨t, h, .refl t, fun _ _ _ => rfl⟩
  | line text rest ih =>
      rw [BootLog.rows, List.length_cons] at hrows
      have hline : Listing t [white text] (t.println text) :=
        Listing.line (by omega) hfits.1
      have hkeeps : BootLog.Keeps vars idx s (println text s) :=
        fun _ hx _ => println_offScreen h text hx
      have hrow := hline.row
      rw [List.length_singleton] at hrow
      rw [BootLog.depth] at hdepth
      obtain ⟨t', hshows, hlisting, hrest⟩ := ih (h.println text)
        ((hkeeps.word (by omega)).trans hidx) hdepth hfits.2 (by omega)
      exact ⟨t', hshows, hline.append hlisting, hkeeps.trans hrest⟩
  | attempt text body ok rest ihBody ihRest =>
      rw [BootLog.rows, List.length_cons, List.length_append] at hrows
      rw [BootLog.depth] at hdepth
      have hrow : t.row.val + 1 < 25 := by omega
      have hapart := vars.apart
      obtain ⟨t₁, hshows₁, hlisting₁, hidx₁, hslot₁, hkept₁⟩ :=
        printAttempt_run h hidx (by omega) hrow hfits.1
      have hrow₁ := hlisting₁.row
      rw [List.length_singleton] at hrow₁
      obtain ⟨t₂, hshows₂, hlisting₂, hkeeps₂⟩ :=
        ihBody hshows₁ hidx₁ (by omega) hfits.2.1 (by omega)
      have hrow₂ := hlisting₂.row
      -- the body has left the slot of this attempt alone
      have hslot₂ : (body.run vars (vars.printAttempt text s)).memory.word
          (vars.attemptStack + 4 * idx) = (⟨t.row.val + 1, hrow⟩ : Fin 25).val := by
        refine Eq.trans ?_ hslot₁
        exact word_congr fun x hlow hhigh =>
          hkeeps₂ x (vars.offScreen x (.inl ⟨by omega, by omega⟩)) (by omega)
      have hopen : Listing t (white (AttemptStack.brackets ++ text) :: body.rows) t₂ :=
        hlisting₁.append hlisting₂
      have hlisting₃ := listing_result hopen hrow ok
      obtain ⟨hshows₃, hidx₃, hkept₃⟩ := printResult_run hshows₂
        ((hkeeps₂.word (by omega)).trans hidx₁) (by omega) hslot₂ ok
      have hrow₃ := hlisting₃.row
      rw [List.length_cons] at hrow₃
      have hkeeps₃ : BootLog.Keeps vars idx s
          (vars.printResult ok (body.run vars (vars.printAttempt text s))) := by
        intro x hx hslot
        by_cases hstack : vars.stackIdx ≤ x ∧ x < vars.stackIdx + 4
        · have hbyte := byteOf_word s.memory vars.stackIdx (k := x - vars.stackIdx) (by omega)
          rw [hidx, ← hidx₃, byteOf_word _ _ (by omega), Nat.add_sub_cancel' hstack.1] at hbyte
          exact hbyte
        · rw [hkept₃ x hx hstack, hkeeps₂ x hx (by omega), hkept₁ x hx hslot hstack]
      obtain ⟨t₄, hshows₄, hlisting₄, hkeeps₄⟩ :=
        ihRest hshows₃ hidx₃ (by omega) hfits.2.2 (by omega)
      exact ⟨t₄, hshows₄, hlisting₃.append hlisting₄, hkeeps₃.trans hkeeps₄⟩

/-- What `main` and `boot` print when the machine comes up. `thread_init` prints the stack pointer,
and `map_page` the page of the idle thread; the numerals are those of `itoa`. -/
def bootLog (esp paddr vaddr : List UInt8) : BootLog :=
  .line (literal "Kernel Mode.") <|
  .attempt (literal "Clearing BSS.") .done true <|
  .attempt (literal "Memory Regions Check:") (.line (literal "Mapping kernel pages") .done) true <|
  .attempt (literal "GDT init") .done true <|
  .attempt (literal "Paging init") .done true <|
  .attempt (literal "IDT init") .done true <|
  .attempt (literal "Threading init")
    (.line esp <| .line (literal "Mapped Page (P:V) " ++ paddr ++ literal ":" ++ vaddr) .done)
    true <|
  .line (literal "BOOT COMPLETE") .done

/-- Cleared memory, and the cursor at the top left. -/
def clearedConsole : Console := ⟨fun _ => 0, 0, fun _ => 0⟩

/-- Both variables in a page of their own. -/
def bssVars : AttemptStack where
  attemptStack := 0xC0020000
  stackIdx := 0xC0020200
  fits := by decide
  apart := .inr (by decide)
  offScreen := by
    intro x hx
    unfold OffScreen VIDEO_ADDRESS
    omega

/-- The boot is shown in eleven rows below the cursor. -/
theorem boot_log_shown_boot :
    let log := bootLog (literal "0x8ffb4") (literal "0x20000") (literal "0xc0020000")
    log.rows.length = 11 ∧
      ∃ t', (log.run bssVars clearedConsole).Shows t' ∧
        Listing (clearedConsole.terminal (by decide)) log.rows t' ∧
        BootLog.Keeps bssVars 0 clearedConsole (log.run bssVars clearedConsole) := by
  refine ⟨rfl, ?_⟩
  refine boot_log_shown _ (clearedConsole.shows_terminal (by decide)) rfl (by decide) ?_
    (by decide)
  refine ⟨⟨by decide, by decide⟩, ?_⟩
  repeat' constructor
  all_goals decide

end NickOS3.Boot
