import NickOS3.Lib.Rows

/-!
# The panic screen

`PANIC` fills the screen before it prints, so what it leaves depends on its message only.
-/

namespace NickOS3.Lib

/-! ## The code -/

def drawPanicScreen (s : Console) : Console :=
  let s := (List.range 80).foldl (fun s column =>
    (List.range 25).foldl (fun s row =>
      printCharLoc spaceChar (Int.ofNat column) (Int.ofNat row) WHITE_ON_BLUE s) s) s
  setCursor (getScreenOffset 0 0) s

/-- What `PANIC` and `PANIC_EXC` print before they halt or go on with the state; a message is
printed for so many rounds. -/
def panicMessage (rounds message : Nat) (s : Console) : Option Console :=
  let s := println (literal "PANIC") (drawPanicScreen s)
  let s := println (literal "System fucked") s
  print rounds message (printChars [newlineChar] s)

/-- `PANIC`, up to `halt`. -/
def PANIC (rounds message : Nat) (s : Console) : Option Console := panicMessage rounds message s

/-! ## What is meant -/

/-- The empty screen of a panic. -/
def panicTerminal : Terminal := .filled ⟨spaceChar, WHITE_ON_BLUE⟩

/-- The lines on it for a message. -/
def panicLines (text : List UInt8) : List (List UInt8) :=
  [literal "PANIC", literal "System fucked", text]

/-! ## Messages and the screen -/

section Messages

variable {s s' : Console} {t : Terminal} {message : Nat} {text : List UInt8}

/-- A message beside the screen is still there when only the screen has changed. -/
theorem Console.MessageAt.of_offScreen (h : s.MessageAt message text)
    (hkept : ∀ a, OffScreen a → s'.memory a = s.memory a) : s'.MessageAt message text := by
  refine ⟨fun i c hc => ?_, ?_, h.noNul, h.offScreen⟩
  · have hi : i < text.length := (List.getElem?_eq_some_iff.mp hc).1
    rw [hkept _ (h.offScreen i (Nat.le_of_lt hi))]
    exact h.chars i c hc
  · rw [hkept _ (h.offScreen _ (Nat.le_refl _))]
    exact h.nul

/-- `print` on a console that shows a terminal. -/
theorem Console.Shows.print (h : s.Shows t) (hmessage : s.MessageAt message text)
    {rounds : Nat} (hrounds : text.length < rounds) :
    Lib.print rounds message s = some (Lib.printChars text s) :=
  printLoop_run text rounds 0 s t h hrounds hmessage

end Messages

/-! ## The screen -/

/-- `draw_panic_screen` from any state of the screen and any place of the cursor. -/
theorem drawPanicScreen_shows (s : Console) : (drawPanicScreen s).Shows panicTerminal ∧
    ∀ a, OffScreen a → (drawPanicScreen s).memory a = s.memory a := by
  have hplaces : ∀ p ∈ (List.range 80).flatMap fun col => (List.range 25).map fun row => (row, col),
      p.1 < 25 ∧ p.2 < 80 := by
    intro p hp
    obtain ⟨col, hcol, hp⟩ := List.mem_flatMap.mp hp
    obtain ⟨row, hrow, rfl⟩ := List.mem_map.mp hp
    exact ⟨List.mem_range.mp hrow, List.mem_range.mp hcol⟩
  have hfills := Fills.fold (show WHITE_ON_BLUE ≠ 0 by decide) _ (Fills.nil _ s) hplaces
  rw [List.nil_append, List.foldl_flatMap] at hfills
  simp only [List.foldl_map] at hfills
  refine ⟨hfills.shows fun r hr c hc => ?_, hfills.offScreen⟩
  exact List.mem_flatMap.mpr ⟨c, List.mem_range.mpr hc,
    List.mem_map.mpr ⟨r, List.mem_range.mpr hr, rfl⟩⟩

/-- `println` of a message that is given by a pointer, up to its `print`. -/
theorem printlnPointer_run {s : Console} {t : Terminal} (h : s.Shows t) {message : Nat}
    {text : List UInt8} (hmessage : s.MessageAt message text) :
    (∀ rounds, text.length < rounds →
        print rounds message (printChars [newlineChar] s) = some (println text s)) ∧
      (println text s).Shows (t.println text) ∧
      ∀ a, OffScreen a → (println text s).memory a = s.memory a := by
  have hnew := h.printChars [newlineChar]
  have hkept : ∀ a, OffScreen a → (printChars [newlineChar] s).memory a = s.memory a :=
    fun a ha => printChars_offScreen h _ ha
  exact ⟨fun _ hrounds => hnew.print (hmessage.of_offScreen hkept) hrounds, h.println text,
    fun a ha => println_offScreen h text ha⟩

/-- The panic screen with its message, from any console. -/
theorem panicMessage_run (s : Console) {message : Nat} {text : List UInt8}
    (hmessage : s.MessageAt message text) :
    ∃ s', (∀ rounds, text.length < rounds → panicMessage rounds message s = some s') ∧
      s'.Shows (panicTerminal.printlns (panicLines text)) ∧
      ∀ a, OffScreen a → s'.memory a = s.memory a := by
  obtain ⟨hdrawn, hkept⟩ := drawPanicScreen_shows s
  unfold panicMessage panicLines
  generalize literal "PANIC" = first
  generalize literal "System fucked" = second
  have hfirst := hdrawn.println first
  have hsecond := hfirst.println second
  have hbefore : ∀ a, OffScreen a →
      (println second (println first (drawPanicScreen s))).memory a = s.memory a := by
    intro a ha
    rw [println_offScreen hfirst _ ha, println_offScreen hdrawn _ ha, hkept a ha]
  obtain ⟨hprint, hshows, hrest⟩ :=
    printlnPointer_run hsecond (hmessage.of_offScreen hbefore)
  exact ⟨_, hprint, hshows, fun a ha => (hrest a ha).trans (hbefore a ha)⟩

theorem panicLines_fit {text : List UInt8} (h : FitsFrom 0 text) :
    ∀ line ∈ panicLines text, FitsFrom 0 line := by
  intro line hline
  simp only [panicLines, List.mem_cons, List.not_mem_nil, or_false] at hline
  rcases hline with rfl | rfl | rfl
  · exact ⟨by decide, by decide⟩
  · exact ⟨by decide, by decide⟩
  · exact h

/-- The panic screen depends on the message only: whatever has been on the screen and wherever the
cursor was, it is blue but for three lines, and the memory beside it is as it was. -/
theorem panic_screen (s : Console) {message : Nat} {text : List UInt8}
    (hmessage : s.MessageAt message text) (hfits : FitsFrom 0 text) :
    ∃ s' t', (∀ rounds, text.length < rounds → PANIC rounds message s = some s') ∧
      s'.Shows t' ∧ Listing panicTerminal ((panicLines text).map white) t' ∧
      ∀ a, OffScreen a → s'.memory a = s.memory a := by
  obtain ⟨s', hrun, hshows, hkept⟩ := panicMessage_run s hmessage
  have hrows : 0 + 3 < 25 := by decide
  exact ⟨s', _, hrun, hshows, .lines (panicLines text) hrows (panicLines_fit hfits), hkept⟩

/-- The cursor stands nowhere on the screen, and the message lies at address 0. -/
def lostCursor : Console where
  memory a := if a = 0 then 72 else 0
  selected := 0
  registers _ := 255

theorem panic_screen_lost_cursor : ∃ s' t',
    (∀ rounds, 1 < rounds → PANIC rounds 0 lostCursor = some s') ∧ s'.Shows t' ∧
      Listing panicTerminal ((panicLines [72]).map white) t' ∧
      ∀ a, OffScreen a → s'.memory a = lostCursor.memory a := by
  have hmessage : lostCursor.MessageAt 0 [72] := by
    refine ⟨?_, rfl, by decide, ?_⟩
    · intro i c hc
      rcases i with _ | i
      · exact Option.some.inj hc
      · exact absurd hc (by simp)
    · intro i hi
      have hlt : i ≤ 1 := hi
      exact Or.inl (show 0 + i < 753664 by omega)
  exact panic_screen lostCursor hmessage ⟨by decide, by decide⟩

end NickOS3.Lib
