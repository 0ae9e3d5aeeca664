import Mathlib.Data.Fin.Basic
import Mathlib.Data.List.Range
import Mathlib.Logic.Function.Basic
import NickOS3.Words

/-!
# The screen

`print` works on byte offsets into the video memory, keeps the cursor as two bytes of a cell
index in the registers of the device, and scrolls by copying rows. A terminal of 25 rows and
80 columns shows the same.
-/

namespace NickOS3.Lib

/-! ## The code -/

/-- `VIDEO_ADDRESS` -/
def VIDEO_ADDRESS : Nat := 0xb8000

def MAX_ROWS : Nat := 25

def MAX_COLS : Nat := 80

def WHITE_ON_BLACK : UInt8 := 0x0f

def REG_SCREEN_CTRL : Nat := 0x3D4

def REG_SCREEN_DATA : Nat := 0x3D5

/-- Memory and the screen device: its internal registers and the index of the selected one. -/
structure Console where
  memory : Bytes
  selected : UInt8
  registers : UInt8 → UInt8

def portByteOut (port : Nat) (value : UInt8) (s : Console) : Console :=
  if port = REG_SCREEN_CTRL then { s with selected := value }
  else if port = REG_SCREEN_DATA then
    { s with registers := Function.update s.registers s.selected value }
  else s

/-- `port_byte_in(REG_SCREEN_DATA)` -/
def portByteIn (s : Console) : UInt8 := s.registers s.selected

def getScreenOffset (col row : Nat) : Nat := (row * 80 + col) * 2

def getCursor (s : Console) : Nat × Console :=
  let s := portByteOut REG_SCREEN_CTRL 15 s
  let offset := (portByteIn s).toNat
  let s := portByteOut REG_SCREEN_CTRL 14 s
  let offset := offset ||| (portByteIn s).toNat <<< 8
  (u16 (offset * 2), s)

def setCursor (offset : Nat) (s : Console) : Console :=
  let offset := offset / 2
  let s := portByteOut REG_SCREEN_CTRL 14 s
  let s := portByteOut REG_SCREEN_DATA (UInt8.ofNat (offset >>> 8)) s
  let s := portByteOut REG_SCREEN_CTRL 15 s
  portByteOut REG_SCREEN_DATA (UInt8.ofNat offset) s

/-- `memory_copy` -/
def memoryCopy (source dest noBytes : Nat) (m : Bytes) : Bytes :=
  (List.range noBytes).foldl (fun m i => Function.update m (dest + i) (m (source + i))) m

/-- The rows are shuffled back by one. -/
def shuffleRows (rows : Nat) (m : Bytes) : Bytes :=
  (List.range' 1 rows).foldl (fun m i =>
    memoryCopy (getScreenOffset 0 i + VIDEO_ADDRESS) (getScreenOffset 0 (i - 1) + VIDEO_ADDRESS)
      (MAX_COLS * 2) m) m

/-- `last_line[i] = 0` -/
def clearLine (line noBytes : Nat) (m : Bytes) : Bytes :=
  (List.range noBytes).foldl (fun m i => Function.update m (line + i) 0) m

def handleScrolling (offset : Nat) (s : Console) : Nat × Console :=
  if offset < MAX_ROWS * MAX_COLS * 2 then (offset, s)
  else
    let m := shuffleRows (MAX_ROWS - 1) s.memory
    let lastLine := getScreenOffset 0 (MAX_ROWS - 1) + VIDEO_ADDRESS
    (offset - 2 * MAX_COLS, { s with memory := clearLine lastLine (MAX_COLS * 2) m })

/-- `'\n'` -/
def newlineChar : UInt8 := 10

def printChar (character attributeType : UInt8) (s : Console) : Console :=
  let attributeType := if attributeType = 0 then WHITE_ON_BLACK else attributeType
  let (offset, s) := getCursor s
  let (offset, s) :=
    if character = newlineChar then (getScreenOffset 79 (offset / (2 * MAX_COLS)), s)
    else
      let m := Function.update s.memory (VIDEO_ADDRESS + offset) character
      (offset, { s with memory := Function.update m (VIDEO_ADDRESS + offset + 1) attributeType })
  let (offset, s) := handleScrolling (offset + 2) s
  setCursor offset s

/-- `while (message[i] != 0)`, for so many rounds. -/
def printLoop (message : Nat) : Nat → Nat → Console → Option Console
  | 0, _, _ => none
  | rounds + 1, i, s =>
      if s.memory (message + i) = 0 then some s
      else printLoop message rounds (i + 1)
        (printChar (s.memory (message + i)) WHITE_ON_BLACK s)

def print (rounds message : Nat) (s : Console) : Option Console := printLoop message rounds 0 s

/-! ## The terminal -/

structure Cell where
  char : UInt8
  attributeType : UInt8
  deriving DecidableEq

def Cell.blank : Cell := ⟨0, 0⟩

/-- A screen of 25 rows and 80 columns with its cursor. -/
structure Terminal where
  cells : Fin 25 → Fin 80 → Cell
  row : Fin 25
  col : Fin 80

/-- The top row is dropped, the others move up and the last one is blank. -/
def Terminal.scrolled (t : Terminal) : Fin 25 → Fin 80 → Cell := fun r c =>
  if h : r.val + 1 < 25 then t.cells ⟨r.val + 1, h⟩ c else Cell.blank

/-- To the start of the next row; past the last row the screen scrolls. -/
def Terminal.newline (t : Terminal) : Terminal :=
  if h : t.row.val + 1 < 25 then { t with row := ⟨t.row.val + 1, h⟩, col := 0 }
  else { cells := t.scrolled, row := 24, col := 0 }

def Terminal.advance (t : Terminal) : Terminal :=
  if h : t.col.val + 1 < 80 then { t with col := ⟨t.col.val + 1, h⟩ } else t.newline

/-- The cell under the cursor is replaced. -/
def Terminal.put (t : Terminal) (cell : Cell) : Terminal :=
  { t with cells := Function.update t.cells t.row (Function.update (t.cells t.row) t.col cell) }

def Terminal.write (t : Terminal) (c : UInt8) : Terminal :=
  if c = newlineChar then t.newline else (t.put ⟨c, WHITE_ON_BLACK⟩).advance

/-! ## What the console shows -/

/-- Where a cell lies in the video memory. -/
def cellAddr (row col : Nat) : Nat := VIDEO_ADDRESS + (row * 80 + col) * 2

/-- The cell index in registers 14 and 15. -/
def Console.cursor (s : Console) : Nat := 256 * (s.registers 14).toNat + (s.registers 15).toNat

/-- Cells lie in the video memory, each as its character and its attribute. -/
def ShowsCells (m : Bytes) (cells : Fin 25 → Fin 80 → Cell) : Prop :=
  ∀ (r : Fin 25) (c : Fin 80), m (cellAddr r c) = (cells r c).char ∧
    m (cellAddr r c + 1) = (cells r c).attributeType

/-- The cells and the cursor of a terminal are those of the console. -/
structure Console.Shows (s : Console) (t : Terminal) : Prop where
  cells : ShowsCells s.memory t.cells
  cursor : s.cursor = t.row.val * 80 + t.col.val

/-- What the screen shows, for a cursor that stands inside of it. -/
def Console.terminal (s : Console) (h : s.cursor < 2000) : Terminal where
  cells r c := ⟨s.memory (cellAddr r c), s.memory (cellAddr r c + 1)⟩
  row := ⟨s.cursor / 80, Nat.div_lt_of_lt_mul h⟩
  col := ⟨s.cursor % 80, Nat.mod_lt _ (by decide)⟩

/-- An address is outside of the video memory. -/
def OffScreen (a : Nat) : Prop := a < VIDEO_ADDRESS ∨ VIDEO_ADDRESS + 4000 ≤ a

/-- A NUL-terminated string in memory beside the screen. -/
structure Console.MessageAt (s : Console) (message : Nat) (text : List UInt8) : Prop where
  chars : ∀ i c, text[i]? = some c → s.memory (message + i) = c
  nul : s.memory (message + text.length) = 0
  noNul : 0 ∉ text
  offScreen : ∀ i ≤ text.length, OffScreen (message + i)

theorem Console.shows_terminal (s : Console) (h : s.cursor < 2000) : s.Shows (s.terminal h) := by
  refine ⟨fun _ _ => ⟨rfl, rfl⟩, ?_⟩
  have hdiv := Nat.div_add_mod s.cursor 80
  change s.cursor = s.cursor / 80 * 80 + s.cursor % 80
  omega

theorem Console.Shows.cursor_lt {s : Console} {t : Terminal} (h : s.Shows t) :
    s.cursor < 2000 := by
  have hrow := t.row.isLt
  have hcol := t.col.isLt
  have hcursor := h.cursor
  omega

theorem Console.Shows.terminal_eq {s : Console} {t : Terminal} (h : s.Shows t)
    (hcursor : s.cursor < 2000) : s.terminal hcursor = t := by
  obtain ⟨cells, row, col⟩ := t
  have hcol := col.isLt
  have hplace := h.cursor
  dsimp only at hplace
  rw [Console.terminal, Terminal.mk.injEq]
  refine ⟨?_, ?_, ?_⟩
  · funext r c
    rw [(h.cells r c).1, (h.cells r c).2]
  · apply Fin.ext
    change s.cursor / 80 = row.val
    omega
  · apply Fin.ext
    change s.cursor % 80 = col.val
    omega

/-! ## Copying and clearing -/

theorem memoryCopy_apply {source dest : Nat} (n : Nat) (h : dest + n ≤ source) (m : Bytes)
    (x : Nat) : memoryCopy source dest n m x =
      if dest ≤ x ∧ x < dest + n then m (source + (x - dest)) else m x := by
  induction n generalizing x with
  | zero =>
      rw [if_neg (by omega)]
      rfl
  | succ n ih =>
      have hstep : memoryCopy source dest (n + 1) m = Function.update (memoryCopy source dest n m)
          (dest + n) (memoryCopy source dest n m (source + n)) := by
        rw [memoryCopy, List.range_succ, List.foldl_append]
        rfl
      rw [hstep, Function.update_apply, ih (by omega), ih (by omega)]
      by_cases hx : x = dest + n
      · rw [if_pos hx, if_neg (by omega), if_pos (by omega)]
        congr 1
        omega
      · rw [if_neg hx]
        by_cases hin : dest ≤ x ∧ x < dest + n
        · rw [if_pos hin, if_pos (by omega)]
        · rw [if_neg hin, if_neg (by omega)]

theorem shuffleRows_apply (rows : Nat) (m : Bytes) (x : Nat) :
    shuffleRows rows m x =
      if VIDEO_ADDRESS ≤ x ∧ x < VIDEO_ADDRESS + 160 * rows then m (x + 160) else m x := by
  induction rows generalizing x with
  | zero =>
      rw [if_neg (by omega)]
      rfl
  | succ rows ih =>
      have hstep : shuffleRows (rows + 1) m =
          memoryCopy (VIDEO_ADDRESS + 160 * (rows + 1)) (VIDEO_ADDRESS + 160 * rows) 160
            (shuffleRows rows m) := by
        have hsource : getScreenOffset 0 (1 + 1 * rows) + VIDEO_ADDRESS =
            VIDEO_ADDRESS + 160 * (rows + 1) := by
          unfold getScreenOffset
          omega
        have hdest : getScreenOffset 0 (1 + 1 * rows - 1) + VIDEO_ADDRESS =
            VIDEO_ADDRESS + 160 * rows := by
          unfold getScreenOffset
          omega
        rw [shuffleRows, List.range'_concat, List.foldl_append, List.foldl_cons, List.foldl_nil,
          ← shuffleRows, hsource, hdest]
        rfl
      rw [hstep, memoryCopy_apply 160 (by omega), ih, ih]
      by_cases hlast : VIDEO_ADDRESS + 160 * rows ≤ x ∧ x < VIDEO_ADDRESS + 160 * rows + 160
      · rw [if_pos hlast, if_neg (by omega), if_pos (by omega)]
        congr 1
        omega
      · rw [if_neg hlast]
        by_cases hin : VIDEO_ADDRESS ≤ x ∧ x < VIDEO_ADDRESS + 160 * rows
        · rw [if_pos hin, if_pos (by omega)]
        · rw [if_neg hin, if_neg (by omega)]

theorem clearLine_apply (line n : Nat) (m : Bytes) (x : Nat) :
    clearLine line n m x = if line ≤ x ∧ x < line + n then 0 else m x := by
  induction n generalizing x with
  | zero =>
      rw [if_neg (by omega)]
      rfl
  | succ n ih =>
      have hstep : clearLine line (n + 1) m =
          Function.update (clearLine line n m) (line + n) 0 := by
        rw [clearLine, List.range_succ, List.foldl_append]
        rfl
      rw [hstep, Function.update_apply, ih]
      by_cases hx : x = line + n
      · rw [if_pos hx, if_pos (by omega)]
      · rw [if_neg hx]
        by_cases hin : line ≤ x ∧ x < line + n
        · rw [if_pos hin, if_pos (by omega)]
        · rw [if_neg hin, if_neg (by omega)]

/-- The last row is cleared behind the rows that were shuffled. -/
theorem clearLine_shuffled {v : Nat} {shuffled m : Bytes}
    (h : ∀ x, shuffled x = if v ≤ x ∧ x < v + 160 * 24 then m (x + 160) else m x) (x : Nat) :
    clearLine (v + 3840) 160 shuffled x =
      if v ≤ x ∧ x < v + 3840 then m (x + 160)
      else if v ≤ x ∧ x < v + 4000 then 0
      else m x := by
  rw [clearLine_apply, h]
  by_cases hshift : v ≤ x ∧ x < v + 3840
  · rw [if_neg (by omega), if_pos hshift, if_pos hshift]
  · rw [if_neg hshift]
    by_cases hlast : v ≤ x ∧ x < v + 4000
    · rw [if_pos (by omega), if_neg hshift, if_pos hlast]
    · rw [if_neg (by omega), if_neg hshift, if_neg hlast]

/-- What scrolling leaves in memory. -/
theorem scrolled_apply (s : Console) (offset : Nat) (h : 4000 ≤ offset) (x : Nat) :
    (handleScrolling offset s).2.memory x =
      if VIDEO_ADDRESS ≤ x ∧ x < VIDEO_ADDRESS + 3840 then s.memory (x + 160)
      else if VIDEO_ADDRESS ≤ x ∧ x < VIDEO_ADDRESS + 4000 then 0
      else s.memory x := by
  have hline : getScreenOffset 0 (MAX_ROWS - 1) + VIDEO_ADDRESS = VIDEO_ADDRESS + 3840 := rfl
  have hcols : MAX_COLS * 2 = 160 := rfl
  have hrows : MAX_ROWS - 1 = 24 := rfl
  have hnot : ¬ offset < MAX_ROWS * MAX_COLS * 2 := Nat.not_lt.mpr h
  have hafter : (handleScrolling offset s).2.memory =
      clearLine (VIDEO_ADDRESS + 3840) 160 (shuffleRows 24 s.memory) := by
    rw [handleScrolling, if_neg hnot]
    dsimp only
    rw [hline, hcols, hrows]
  rw [hafter]
  exact clearLine_shuffled (shuffleRows_apply 24 s.memory) x

/-! ## The cursor -/

theorem setCursor_memory (offset : Nat) (s : Console) : (setCursor offset s).memory = s.memory :=
  rfl

/-- The two bytes of the registers are one cell index, and the offset is twice that. -/
theorem getCursor_offset (s : Console) (h : s.cursor < 2000) :
    (getCursor s).1 = s.cursor * 2 := by
  have hlow : (s.registers 15).toNat < 2 ^ 8 := (s.registers 15).toNat_lt
  have hor : (s.registers 15).toNat ||| (s.registers 14).toNat <<< 8 = s.cursor := by
    rw [Nat.or_comm, ← Nat.shiftLeft_add_eq_or_of_lt hlow, Nat.shiftLeft_eq, Console.cursor]
    omega
  change u16 (((s.registers 15).toNat ||| (s.registers 14).toNat <<< 8) * 2) = _
  rw [hor, u16]
  exact Nat.mod_eq_of_lt (by omega)

theorem setCursor_registers (offset : Nat) (s : Console) :
    (setCursor offset s).registers =
      Function.update (Function.update s.registers 14 (UInt8.ofNat ((offset / 2) >>> 8))) 15
        (UInt8.ofNat (offset / 2)) := rfl

theorem setCursor_cursor (offset : Nat) (s : Console) (h : offset / 2 < 65536) :
    (setCursor offset s).cursor = offset / 2 := by
  have hdiv := Nat.div_add_mod (offset / 2) 256
  have hhigh : offset / 2 / 2 ^ 8 < 2 ^ 8 := Nat.div_lt_of_lt_mul h
  rw [Console.cursor, setCursor_registers, Function.update_self,
    Function.update_of_ne (by decide), Function.update_self, UInt8.toNat_ofNat',
    UInt8.toNat_ofNat', Nat.shiftRight_eq_div_pow, Nat.mod_eq_of_lt hhigh]
  exact hdiv

/-! ## One character -/

theorem handleScrolling_of_lt {offset : Nat} (h : offset < 4000) (s : Console) :
    handleScrolling offset s = (offset, s) := by
  have hinside : offset < MAX_ROWS * MAX_COLS * 2 := h
  rw [handleScrolling, if_pos hinside]

theorem handleScrolling_offset {offset : Nat} (h : 4000 ≤ offset) (s : Console) :
    (handleScrolling offset s).1 = offset - 160 := by
  have hnot : ¬ offset < MAX_ROWS * MAX_COLS * 2 := Nat.not_lt.mpr h
  rw [handleScrolling, if_neg hnot]
  rfl

theorem cellAddr_injective {r r' c c' : Nat} (hc : c < 80) (hc' : c' < 80)
    (h : cellAddr r c = cellAddr r' c') : r = r' ∧ c = c' := by
  unfold cellAddr at h
  constructor <;> omega

/-- The rows of the scrolled screen are those of the memory behind them. -/
theorem ShowsCells.scrolled {s : Console} {t : Terminal} (h : ShowsCells s.memory t.cells)
    {offset : Nat} (hoffset : 4000 ≤ offset) :
    ShowsCells (handleScrolling offset s).2.memory t.scrolled := by
  intro r c
  have hr := r.isLt
  have hc := c.isLt
  have haddr : cellAddr r c = VIDEO_ADDRESS + (r.val * 80 + c.val) * 2 := rfl
  rw [scrolled_apply s offset hoffset, scrolled_apply s offset hoffset, Terminal.scrolled]
  by_cases hlast : r.val + 1 < 25
  · have hnext : cellAddr r c + 160 = cellAddr (r.val + 1) c := by
      unfold cellAddr
      omega
    have hrow := h ⟨r.val + 1, hlast⟩ c
    rw [if_pos (by omega), if_pos (by omega), dif_pos hlast]
    rw [Nat.add_right_comm, hnext]
    exact hrow
  · rw [if_neg (by omega), if_pos (by omega), if_neg (by omega), if_pos (by omega),
      dif_neg hlast]
    exact ⟨rfl, rfl⟩

/-- The cursor comes to the start of the next row. -/
theorem ShowsCells.newline {s : Console} {t : Terminal} (h : ShowsCells s.memory t.cells)
    {offset : Nat} (hoffset : offset = (t.row.val + 1) * 160) :
    (setCursor (handleScrolling offset s).1 (handleScrolling offset s).2).Shows t.newline := by
  have hrow := t.row.isLt
  rw [Terminal.newline]
  by_cases hnext : t.row.val + 1 < 25
  · rw [dif_pos hnext, handleScrolling_of_lt (by omega)]
    refine ⟨h, ?_⟩
    rw [setCursor_cursor _ _ (by omega), hoffset]
    change _ = (t.row.val + 1) * 80 + 0
    omega
  · rw [dif_neg hnext]
    refine ⟨h.scrolled (by omega), ?_⟩
    rw [handleScrolling_offset (by omega), setCursor_cursor _ _ (by omega), hoffset]
    change _ = 24 * 80 + 0
    omega

theorem ShowsCells.put {m : Bytes} {t : Terminal} (h : ShowsCells m t.cells) (cell : Cell) :
    ShowsCells (Function.update (Function.update m (cellAddr t.row t.col) cell.char)
      (cellAddr t.row t.col + 1) cell.attributeType) (t.put cell).cells := by
  intro r c
  by_cases hhere : r = t.row ∧ c = t.col
  · obtain ⟨rfl, rfl⟩ := hhere
    rw [Function.update_of_ne (by omega), Function.update_self, Function.update_self, Terminal.put]
    dsimp only
    rw [Function.update_self, Function.update_self]
    exact ⟨rfl, rfl⟩
  · have hcells : (t.put cell).cells r c = t.cells r c := by
      rw [Terminal.put]
      dsimp only
      by_cases hrow : r = t.row
      · subst hrow
        rw [Function.update_self, Function.update_of_ne fun hcol => hhere ⟨rfl, hcol⟩]
      · rw [Function.update_of_ne hrow]
    have hne : cellAddr r c ≠ cellAddr t.row t.col := by
      intro heq
      obtain ⟨hrow, hcol⟩ := cellAddr_injective c.isLt t.col.isLt heq
      exact hhere ⟨Fin.ext hrow, Fin.ext hcol⟩
    have hodd : cellAddr r c ≠ cellAddr t.row t.col + 1 ∧
        cellAddr r c + 1 ≠ cellAddr t.row t.col := by
      unfold cellAddr
      omega
    rw [hcells, Function.update_of_ne hodd.1, Function.update_of_ne hne,
      Function.update_of_ne (by omega), Function.update_of_ne hodd.2]
    exact h r c

/-- The cursor comes to the next cell. -/
theorem ShowsCells.advance {s : Console} {t : Terminal} (h : ShowsCells s.memory t.cells)
    {offset : Nat} (hoffset : offset = (t.row.val * 80 + t.col.val + 1) * 2) :
    (setCursor (handleScrolling offset s).1 (handleScrolling offset s).2).Shows t.advance := by
  have hrow := t.row.isLt
  have hcol := t.col.isLt
  rw [Terminal.advance]
  by_cases hnext : t.col.val + 1 < 80
  · rw [dif_pos hnext, handleScrolling_of_lt (by omega)]
    refine ⟨h, ?_⟩
    rw [setCursor_cursor _ _ (by omega), hoffset]
    change _ = t.row.val * 80 + (t.col.val + 1)
    omega
  · rw [dif_neg hnext]
    exact h.newline (by omega)

/-- One character on the console is one on the terminal. -/
theorem Console.Shows.printChar {s : Console} {t : Terminal} (h : s.Shows t) (c : UInt8) :
    (Lib.printChar c WHITE_ON_BLACK s).Shows (t.write c) := by
  have hrow := t.row.isLt
  have hcol := t.col.isLt
  have hcursor := h.cursor
  have hoffset := getCursor_offset s h.cursor_lt
  have hattr : (if WHITE_ON_BLACK = 0 then WHITE_ON_BLACK else WHITE_ON_BLACK) =
    WHITE_ON_BLACK := rfl
  rw [Lib.printChar, Terminal.write, hattr]
  dsimp only
  rw [hoffset]
  by_cases hnew : c = newlineChar
  · rw [if_pos hnew, if_pos hnew]
    have hsame : ShowsCells (getCursor s).2.memory t.cells := h.cells
    apply hsame.newline
    unfold getScreenOffset MAX_COLS
    omega
  · rw [if_neg hnew, if_neg hnew]
    have haddr : VIDEO_ADDRESS + s.cursor * 2 = cellAddr t.row t.col := by
      rw [hcursor, cellAddr]
    have hput : ShowsCells (Function.update (Function.update (getCursor s).2.memory
        (VIDEO_ADDRESS + s.cursor * 2) c) (VIDEO_ADDRESS + s.cursor * 2 + 1) WHITE_ON_BLACK)
        (t.put ⟨c, WHITE_ON_BLACK⟩).cells := by
      rw [haddr]
      exact h.cells.put ⟨c, WHITE_ON_BLACK⟩
    apply hput.advance
    change s.cursor * 2 + 2 = (t.row.val * 80 + t.col.val + 1) * 2
    omega

/-- `print` writes the characters of its message one by one. -/
def printChars (text : List UInt8) (s : Console) : Console :=
  text.foldl (fun s c => printChar c WHITE_ON_BLACK s) s

def Terminal.writes (t : Terminal) (text : List UInt8) : Terminal := text.foldl Terminal.write t

theorem Console.Shows.printChars {s : Console} {t : Terminal} (h : s.Shows t)
    (text : List UInt8) : (Lib.printChars text s).Shows (t.writes text) := by
  induction text generalizing s t with
  | nil => exact h
  | cons c text ih => exact ih (h.printChar c)

/-! ## Writes stay on the screen -/

theorem handleScrolling_offScreen (offset : Nat) (s : Console) {a : Nat} (ha : OffScreen a) :
    (handleScrolling offset s).2.memory a = s.memory a := by
  unfold OffScreen at ha
  by_cases h : offset < 4000
  · rw [handleScrolling_of_lt h]
  · rw [scrolled_apply s offset (Nat.not_lt.mp h), if_neg (by omega), if_neg (by omega)]

theorem printChar_offScreen {s : Console} (h : s.cursor < 2000) (c : UInt8) {a : Nat}
    (ha : OffScreen a) : (printChar c WHITE_ON_BLACK s).memory a = s.memory a := by
  have hoffset := getCursor_offset s h
  rw [printChar]
  dsimp only
  rw [hoffset, setCursor_memory, handleScrolling_offScreen _ _ ha]
  by_cases hnew : c = newlineChar
  · rw [if_pos hnew]
    rfl
  · rw [if_neg hnew]
    unfold OffScreen at ha
    dsimp only
    rw [Function.update_of_ne (by omega), Function.update_of_ne (by omega)]
    rfl

theorem printChars_offScreen {s : Console} {t : Terminal} (h : s.Shows t) (text : List UInt8)
    {a : Nat} (ha : OffScreen a) : (printChars text s).memory a = s.memory a := by
  induction text generalizing s t with
  | nil => rfl
  | cons c text ih => exact (ih (h.printChar c)).trans (printChar_offScreen h.cursor_lt c ha)

/-- The loop reads the message as it was, since nothing is written to it. -/
theorem printLoop_run {message : Nat} (rest : List UInt8) :
    ∀ (rounds i : Nat) (s : Console) (t : Terminal), s.Shows t → rest.length < rounds →
      s.MessageAt (message + i) rest →
      printLoop message rounds i s = some (printChars rest s) := by
  induction rest with
  | nil =>
      intro rounds i s t h hrounds hmessage
      obtain ⟨rounds, rfl⟩ := Nat.exists_eq_succ_of_ne_zero (Nat.ne_of_gt hrounds)
      have hnul : s.memory (message + i) = 0 := hmessage.nul
      rw [printLoop, if_pos hnul]
      rfl
  | cons c rest ih =>
      intro rounds i s t h hrounds hmessage
      obtain ⟨rounds, rfl⟩
        := Nat.exists_eq_succ_of_ne_zero (Nat.ne_of_gt (Nat.zero_lt_of_lt hrounds))
      have hchar : s.memory (message + i) = c := hmessage.chars 0 c rfl
      have hc : c ≠ 0 := fun h => hmessage.noNul (h ▸ List.mem_cons_self)
      have hkeeps (j : Nat) (hj : j ≤ rest.length) :
          (printChar c WHITE_ON_BLACK s).memory (message + (i + 1) + j) =
            s.memory (message + i + (j + 1)) := by
        rw [show message + (i + 1) + j = message + i + (j + 1) by omega]
        exact printChar_offScreen h.cursor_lt c (hmessage.offScreen _ (Nat.succ_le_succ hj))
      rw [printLoop, hchar, if_neg hc]
      refine ih rounds (i + 1) _ _ (h.printChar c) (Nat.lt_of_succ_lt_succ hrounds) ⟨?_, ?_, ?_, ?_⟩
      · intro j d hd
        have hj : j < rest.length := (List.getElem?_eq_some_iff.mp hd).1
        rw [hkeeps j (Nat.le_of_lt hj)]
        exact hmessage.chars (j + 1) d hd
      · rw [hkeeps _ (Nat.le_refl _)]
        exact hmessage.nul
      · exact fun hmem => hmessage.noNul (List.mem_cons_of_mem _ hmem)
      · intro j hj
        rw [show message + (i + 1) + j = message + i + (j + 1) by omega]
        exact hmessage.offScreen _ (Nat.succ_le_succ hj)

/-! ## `print` -/

/-- After a prefix of a message the cursor is inside of the screen, the memory beside the
screen is what it was, and the screen and the cursor are those of the terminal. -/
structure Console.Refines (before : Console) (t : Terminal) (text : List UInt8)
    (after : Console) : Prop where
  cursor : after.cursor < 2000
  offScreen : ∀ a, OffScreen a → after.memory a = before.memory a
  shows : after.terminal cursor = t.writes text

/-- `print` ends and leaves the screen and the cursor of a terminal that writes the message,
for every content of the screen and every place of the cursor. -/
theorem print_refines_terminal {s : Console} (hcursor : s.cursor < 2000) {message : Nat}
    {text : List UInt8} (hmessage : s.MessageAt message text) :
    (∀ rounds, text.length < rounds → print rounds message s = some (printChars text s)) ∧
      ∀ n ≤ text.length, s.Refines (s.terminal hcursor) (text.take n)
        (printChars (text.take n) s) := by
  have h := s.shows_terminal hcursor
  constructor
  · intro rounds hrounds
    exact printLoop_run text rounds 0 s _ h hrounds hmessage
  · intro n _
    have hafter := h.printChars (text.take n)
    exact ⟨hafter.cursor_lt, fun a ha => printChars_offScreen h _ ha,
      hafter.terminal_eq hafter.cursor_lt⟩

/-- The cursor stands in the last cell of an empty screen, and a message lies at address 0. -/
def lastCell : Console where
  memory a := if a = 0 then 72 else if a = 1 then newlineChar else 0
  selected := 0
  registers r := if r = 14 then 7 else if r = 15 then 207 else 0

theorem lastCell_cursor : lastCell.cursor < 2000 := by decide

theorem lastCell_message : lastCell.MessageAt 0 [72, newlineChar] := by
  refine ⟨?_, rfl, by decide, ?_⟩
  · intro i c hc
    rcases i with _ | _ | i
    · exact Option.some.inj hc
    · exact Option.some.inj hc
    · exact absurd hc (by simp)
  · intro i hi
    have hlt : i ≤ 2 := hi
    exact Or.inl (show 0 + i < 753664 by omega)

/-- The character wraps and scrolls, and the newline scrolls once more. -/
theorem print_refines_terminal_last_cell :
    (∀ rounds, 2 < rounds →
      print rounds 0 lastCell = some (printChars [72, newlineChar] lastCell)) ∧
    ∀ n ≤ 2, lastCell.Refines (lastCell.terminal lastCell_cursor)
      ([72, newlineChar].take n) (printChars ([72, newlineChar].take n) lastCell) :=
  print_refines_terminal lastCell_cursor lastCell_message

end NickOS3.Lib
