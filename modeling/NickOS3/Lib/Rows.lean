import NickOS3.Lib.Screen

/-!
# Rows of the screen

`println` and `print_char_loc`, and what a run of lines leaves on the screen:
each line in a row of its own, and everything else as it was.
-/

namespace NickOS3.Lib

/-! ## The code -/

def WHITE_ON_BLUE : UInt8 := 0x1f

def GREEN_ON_BLACK : UInt8 := 0x0a

def RED_ON_BLACK : UInt8 := 0x0c

/-- The characters of a string literal. -/
def literal (text : String) : List UInt8 := text.toList.map fun c => UInt8.ofNat c.toNat

/-- `' '` -/
def spaceChar : UInt8 := 32

/-- `println` of a literal, which is its text here. -/
def println (text : List UInt8) (s : Console) : Console :=
  printChars text (printChars [newlineChar] s)

/-- `print_char_loc` writes at a place of its own, or under the cursor when it is given none. -/
def printCharLoc (character : UInt8) (col row : Int) (attributeType : UInt8) (s : Console) :
    Console :=
  let attributeType := if attributeType = 0 then WHITE_ON_BLACK else attributeType
  let (offset, s) :=
    if 0 ≤ col ∧ 0 ≤ row then (getScreenOffset col.toNat row.toNat, s) else getCursor s
  if character = newlineChar then s
  else
    let m := Function.update s.memory (VIDEO_ADDRESS + offset) character
    { s with memory := Function.update m (VIDEO_ADDRESS + offset + 1) attributeType }

/-! ## The terminal -/

/-- A cell is replaced without the cursor. -/
def Terminal.set (t : Terminal) (r : Fin 25) (c : Fin 80) (cell : Cell) : Terminal :=
  { t with cells := Function.update t.cells r (Function.update (t.cells r) c cell) }

/-- Every cell is the same, and the cursor stands at the top left. -/
def Terminal.filled (cell : Cell) : Terminal :=
  ⟨fun _ _ => cell, ⟨0, by decide⟩, ⟨0, by decide⟩⟩

/-- Cells from a column on, and behind them what has been there. -/
def overlay (cells : List Cell) (col : Nat) (row : Fin 80 → Cell) : Fin 80 → Cell := fun c =>
  if col ≤ c.val then cells[c.val - col]?.getD (row c) else row c

/-- To the next row, and a text there. -/
def Terminal.println (t : Terminal) (text : List UInt8) : Terminal := t.newline.writes text

/-- Lines below one another. -/
def Terminal.printlns (t : Terminal) (lines : List (List UInt8)) : Terminal :=
  lines.foldl Terminal.println t

/-- Below the cursor of `before` there are new rows, and the cursor is in the last one. -/
structure Listing (before : Terminal) (rows : List (List Cell)) (after : Terminal) : Prop where
  row : after.row.val = before.row.val + rows.length
  cells : ∀ r : Fin 25, after.cells r =
    if before.row < r then
      overlay (rows[r.val - (before.row.val + 1)]?.getD []) 0 (before.cells r)
    else before.cells r

/-- White characters. -/
def white (text : List UInt8) : List Cell := text.map (⟨·, WHITE_ON_BLACK⟩)

@[simp] theorem length_white (text : List UInt8) : (white text).length = text.length :=
  List.length_map _

theorem overlay_nil (col : Nat) (row : Fin 80 → Cell) : overlay [] col row = row := by
  funext c
  unfold overlay
  split <;> rfl

/-- A cell in front of others. -/
theorem overlay_cons (cell : Cell) (cells : List Cell) {col : Fin 80} (row : Fin 80 → Cell) :
    overlay (cell :: cells) col row =
      overlay cells (col.val + 1) (Function.update row col cell) := by
  funext c
  unfold overlay
  by_cases hc : c = col
  · subst hc
    rw [if_pos (Nat.le_refl _), if_neg (Nat.not_succ_le_self _), Nat.sub_self,
      Function.update_self]
    rfl
  · rw [Function.update_of_ne hc]
    have hne : c.val ≠ col.val := fun h => hc (Fin.ext h)
    by_cases hle : col.val ≤ c.val
    · obtain ⟨k, hk⟩ := Nat.exists_eq_add_of_lt (Nat.lt_of_le_of_ne hle (Ne.symm hne))
      rw [if_pos hle, if_pos (by omega), show c.val - col.val = k + 1 by omega,
        show c.val - (col.val + 1) = k by omega, List.getElem?_cons_succ]
    · rw [if_neg hle, if_neg (by omega)]

/-! ## Writing a line -/

/-- A text without a newline that ends inside of its row. -/
structure FitsFrom (col : Nat) (text : List UInt8) : Prop where
  noNewline : newlineChar ∉ text
  inside : col + text.length < 80

theorem Terminal.writes_append (t : Terminal) (first rest : List UInt8) :
    t.writes (first ++ rest) = (t.writes first).writes rest := List.foldl_append

/-- A text that fits is written into the row of the cursor. -/
theorem Terminal.writes_fits {t : Terminal} {text : List UInt8} (h : FitsFrom t.col text) :
    t.writes text =
      { cells := Function.update t.cells t.row
          (overlay (white text) t.col (t.cells t.row))
        row := t.row
        col := ⟨t.col.val + text.length, h.inside⟩ } := by
  induction text generalizing t with
  | nil =>
      change t = _
      rw [white, List.map_nil, overlay_nil, Function.update_eq_self]
      rfl
  | cons c text ih =>
      have hinside := h.inside
      rw [List.length_cons] at hinside
      have hnew : c ≠ newlineChar := fun hc => h.noNewline (hc ▸ List.mem_cons_self)
      have hcol : t.col.val + 1 < 80 := by omega
      have hwrite : t.write c =
          { t.put ⟨c, WHITE_ON_BLACK⟩ with col := ⟨t.col.val + 1, hcol⟩ } := by
        rw [Terminal.write, if_neg hnew, Terminal.advance]
        exact dif_pos hcol
      have hrest : FitsFrom (t.write c).col text := by
        rw [hwrite]
        exact ⟨fun hmem => h.noNewline (List.mem_cons_of_mem _ hmem), by dsimp only; omega⟩
      change (t.write c).writes text = _
      rw [ih hrest]
      simp only [hwrite, Terminal.put, white, List.map_cons, overlay_cons,
        Function.update_self, Function.update_idem, List.length_cons, Terminal.mk.injEq, true_and]
      exact Fin.ext (by dsimp only; omega)

theorem Terminal.printlns_append (t : Terminal) (first rest : List (List UInt8)) :
    t.printlns (first ++ rest) = (t.printlns first).printlns rest := List.foldl_append

theorem Terminal.newline_below {t : Terminal} (h : t.row.val + 1 < 25) :
    t.newline = { t with row := ⟨t.row.val + 1, h⟩, col := 0 } := by
  rw [Terminal.newline, dif_pos h]

/-! ## Listings -/

theorem Listing.refl (t : Terminal) : Listing t [] t := by
  refine ⟨rfl, fun r => ?_⟩
  split
  · exact (overlay_nil 0 _).symm
  · rfl

/-- Rows below rows. -/
theorem Listing.append {t t' t'' : Terminal} {rows rows' : List (List Cell)}
    (h : Listing t rows t') (h' : Listing t' rows' t'') : Listing t (rows ++ rows') t'' := by
  have hrow := h.row
  have hrow' := h'.row
  refine ⟨by rw [List.length_append]; omega, fun r => ?_⟩
  rw [h'.cells, h.cells]
  by_cases hbelow : t'.row < r
  · have hlt : t.row < r := by
      rw [Fin.lt_def] at hbelow ⊢
      omega
    have hold : rows[r.val - (t.row.val + 1)]? = none := by
      rw [List.getElem?_eq_none_iff]
      rw [Fin.lt_def] at hbelow
      omega
    have hnew : (rows ++ rows')[r.val - (t.row.val + 1)]? =
        rows'[r.val - (t'.row.val + 1)]? := by
      rw [Fin.lt_def] at hbelow
      rw [List.getElem?_append_right (by omega)]
      congr 1
      omega
    rw [if_pos hbelow, if_pos hlt, if_pos hlt, hold, hnew, Option.getD_none, overlay_nil]
  · rw [if_neg hbelow]
    by_cases hlt : t.row < r
    · rw [if_pos hlt, if_pos hlt]
      rw [Fin.lt_def] at hlt hbelow
      rw [List.getElem?_append_left (by omega)]
    · rw [if_neg hlt, if_neg hlt]

/-- A newline and a text that fits are a row of their own. -/
theorem Listing.line {t : Terminal} {text : List UInt8} (hrow : t.row.val + 1 < 25)
    (h : FitsFrom 0 text) : Listing t [white text] (t.println text) := by
  unfold Terminal.println
  have hfits : FitsFrom t.newline.col text := by
    rw [Terminal.newline_below hrow]
    exact h
  rw [Terminal.writes_fits hfits]
  simp only [Terminal.newline_below hrow]
  refine ⟨rfl, fun r => ?_⟩
  by_cases hr : r = ⟨t.row.val + 1, hrow⟩
  · subst hr
    have hbelow : t.row < ⟨t.row.val + 1, hrow⟩ := Nat.lt_succ_self t.row.val
    dsimp only
    rw [Function.update_self, if_pos hbelow, Nat.sub_self]
    rfl
  · have hne : r.val ≠ t.row.val + 1 := fun h => hr (Fin.ext h)
    dsimp only
    rw [Function.update_of_ne hr]
    split
    · rename_i hlt
      rw [Fin.lt_def] at hlt
      rw [List.getElem?_eq_none (by simp only [List.length_singleton]; omega),
        Option.getD_none, overlay_nil]
    · rfl

/-- Lines that fit are a row each. -/
theorem Listing.lines {t : Terminal} (lines : List (List UInt8))
    (hrows : t.row.val + lines.length < 25) (h : ∀ line ∈ lines, FitsFrom 0 line) :
    Listing t (lines.map white) (t.printlns lines) := by
  induction lines generalizing t with
  | nil => exact .refl t
  | cons line lines ih =>
      rw [List.length_cons] at hrows
      have hline : Listing t [white line] (t.println line) :=
        .line (by omega) (h line List.mem_cons_self)
      have hrow := hline.row
      rw [List.length_singleton] at hrow
      exact hline.append (ih (by omega) fun l hl => h l (List.mem_cons_of_mem _ hl))

theorem overlay_set {cells : List Cell} {c : Fin 80} (hc : c.val < cells.length) (cell : Cell)
    (row : Fin 80 → Cell) :
    Function.update (overlay cells 0 row) c cell = overlay (cells.set c.val cell) 0 row := by
  funext d
  unfold overlay
  by_cases hd : d = c
  · subst hd
    rw [Function.update_self, if_pos (Nat.zero_le _), Nat.sub_zero,
      List.getElem?_set_self hc, Option.getD_some]
  · have hne : c.val ≠ d.val := fun h => hd (Fin.ext h.symm)
    rw [Function.update_of_ne hd, if_pos (Nat.zero_le _), if_pos (Nat.zero_le _), Nat.sub_zero,
      List.getElem?_set_ne hne]

/-- A cell in the first new row of a listing is replaced. -/
theorem Listing.set {t t' : Terminal} {cells : List Cell} {rows : List (List Cell)}
    (h : Listing t (cells :: rows) t') (hrow : t.row.val + 1 < 25) {c : Fin 80}
    (hc : c.val < cells.length) (cell : Cell) :
    Listing t (cells.set c.val cell :: rows) (t'.set ⟨t.row.val + 1, hrow⟩ c cell) := by
  refine ⟨h.row, fun r => ?_⟩
  unfold Terminal.set
  dsimp only
  by_cases hr : r = ⟨t.row.val + 1, hrow⟩
  · subst hr
    have hbelow : t.row < ⟨t.row.val + 1, hrow⟩ := Nat.lt_succ_self t.row.val
    rw [Function.update_self, h.cells, if_pos hbelow, if_pos hbelow, Nat.sub_self]
    exact overlay_set hc cell _
  · have hne : r.val ≠ t.row.val + 1 := fun h => hr (Fin.ext h)
    rw [Function.update_of_ne hr, h.cells]
    split
    · rename_i hlt
      rw [Fin.lt_def] at hlt
      obtain ⟨k, hk⟩ : ∃ k, r.val - (t.row.val + 1) = k + 1 := ⟨r.val - t.row.val - 2, by omega⟩
      rw [hk, List.getElem?_cons_succ, List.getElem?_cons_succ]
    · rfl

/-! ## The code on the terminal -/

theorem println_eq (text : List UInt8) (s : Console) :
    println text s = printChars (newlineChar :: text) s := rfl

theorem Console.Shows.println {s : Console} {t : Terminal} (h : s.Shows t) (text : List UInt8) :
    (Lib.println text s).Shows (t.println text) := h.printChars (newlineChar :: text)

theorem println_offScreen {s : Console} {t : Terminal} (h : s.Shows t) (text : List UInt8)
    {a : Nat} (ha : OffScreen a) : (println text s).memory a = s.memory a := by
  rw [println_eq]
  exact printChars_offScreen h _ ha

/-- What is shown does not depend on memory beside the screen. -/
theorem Console.Shows.of_onScreen {s s' : Console} {t : Terminal} (h : s.Shows t)
    (hregisters : s'.registers = s.registers)
    (hscreen : ∀ x, ¬ OffScreen x → s'.memory x = s.memory x) : s'.Shows t := by
  constructor
  · intro r c
    have hr := r.isLt
    have hc := c.isLt
    have haddr : ¬ OffScreen (cellAddr r c) ∧ ¬ OffScreen (cellAddr r c + 1) := by
      unfold OffScreen cellAddr
      omega
    rw [hscreen _ haddr.1, hscreen _ haddr.2]
    exact h.cells r c
  · have hcursor := h.cursor
    unfold Console.cursor at *
    rw [hregisters]
    exact hcursor

theorem printCharLoc_inside {c : UInt8} (hc : c ≠ newlineChar) (col row : Nat) {attr : UInt8}
    (hattr : attr ≠ 0) (s : Console) :
    printCharLoc c (Int.ofNat col) (Int.ofNat row) attr s =
      { s with
        memory := Function.update (Function.update s.memory (cellAddr row col) c)
          (cellAddr row col + 1) attr } := by
  rw [printCharLoc, if_neg hattr, if_pos ⟨Int.natCast_nonneg col, Int.natCast_nonneg row⟩]
  dsimp only
  rw [if_neg hc]
  rfl

/-- `print_char_loc` inside of the screen. -/
theorem Console.Shows.printCharLoc {s : Console} {t : Terminal} (h : s.Shows t) {c : UInt8}
    (hc : c ≠ newlineChar) (col : Fin 80) (row : Fin 25) {attr : UInt8} (hattr : attr ≠ 0) :
    (Lib.printCharLoc c (Int.ofNat col) (Int.ofNat row) attr s).Shows
      (t.set row col ⟨c, attr⟩) := by
  rw [printCharLoc_inside hc col row hattr]
  refine ⟨?_, h.cursor⟩
  have hmoved : ShowsCells s.memory ({ t with row := row, col := col } : Terminal).cells := h.cells
  exact hmoved.put ⟨c, attr⟩

theorem printCharLoc_offScreen {c : UInt8} (hc : c ≠ newlineChar) {col row : Nat}
    (hcol : col < 80) (hrow : row < 25) {attr : UInt8} (hattr : attr ≠ 0) (s : Console) {a : Nat}
    (ha : OffScreen a) :
    (printCharLoc c (Int.ofNat col) (Int.ofNat row) attr s).memory a = s.memory a := by
  have haddr : VIDEO_ADDRESS ≤ cellAddr row col ∧ cellAddr row col + 1 < VIDEO_ADDRESS + 4000 := by
    unfold cellAddr
    omega
  unfold OffScreen at ha
  rw [printCharLoc_inside hc col row hattr]
  dsimp only
  rw [Function.update_of_ne (by omega), Function.update_of_ne (by omega)]

/-! ## Filling the screen -/

/-- Spaces have been written to some places, and nowhere else. -/
structure Fills (attr : UInt8) (places : List (Nat × Nat)) (s s' : Console) : Prop where
  registers : s'.registers = s.registers
  filled : ∀ p ∈ places, s'.memory (cellAddr p.1 p.2) = spaceChar ∧
    s'.memory (cellAddr p.1 p.2 + 1) = attr
  offScreen : ∀ a, OffScreen a → s'.memory a = s.memory a

theorem Fills.nil (attr : UInt8) (s : Console) : Fills attr [] s s :=
  ⟨rfl, fun _ h => absurd h List.not_mem_nil, fun _ _ => rfl⟩

theorem Fills.snoc {attr : UInt8} (hattr : attr ≠ 0) {places : List (Nat × Nat)}
    {s s' : Console} (h : Fills attr places s s') {row col : Nat} (hrow : row < 25)
    (hcol : col < 80) : Fills attr (places ++ [(row, col)]) s
      (printCharLoc spaceChar (Int.ofNat col) (Int.ofNat row) attr s') := by
  refine ⟨?_, fun p hp => ?_, fun a ha => ?_⟩
  · rw [printCharLoc_inside (by decide) col row hattr]
    exact h.registers
  · rw [printCharLoc_inside (by decide) col row hattr]
    dsimp only
    by_cases hsame : cellAddr p.1 p.2 = cellAddr row col
    · rw [hsame, Function.update_of_ne (by omega), Function.update_self, Function.update_self]
      exact ⟨rfl, rfl⟩
    · have hodd : cellAddr p.1 p.2 ≠ cellAddr row col + 1 ∧
          cellAddr p.1 p.2 + 1 ≠ cellAddr row col := by
        unfold cellAddr
        omega
      have hold : p ∈ places := by
        refine (List.mem_append.mp hp).resolve_right fun hnew => ?_
        rw [List.mem_singleton.mp hnew] at hsame
        exact hsame rfl
      rw [Function.update_of_ne hodd.1, Function.update_of_ne hsame,
        Function.update_of_ne (by omega), Function.update_of_ne hodd.2]
      exact h.filled p hold
  · rw [printCharLoc_offScreen (by decide) hcol hrow hattr _ ha]
    exact h.offScreen a ha

theorem Fills.fold {attr : UInt8} (hattr : attr ≠ 0) (rest : List (Nat × Nat)) :
    ∀ {places : List (Nat × Nat)} {s s' : Console}, Fills attr places s s' →
      (∀ p ∈ rest, p.1 < 25 ∧ p.2 < 80) →
      Fills attr (places ++ rest) s (rest.foldl (fun s p =>
        printCharLoc spaceChar (Int.ofNat p.2) (Int.ofNat p.1) attr s) s') := by
  induction rest with
  | nil =>
      intro places s s' h _
      rw [List.append_nil]
      exact h
  | cons p rest ih =>
      intro places s s' h hinside
      obtain ⟨hrow, hcol⟩ := hinside p List.mem_cons_self
      have hsnoc := h.snoc hattr hrow hcol
      have hall := ih hsnoc fun q hq => hinside q (List.mem_cons_of_mem _ hq)
      rw [List.append_assoc] at hall
      exact hall

/-- A screen that is filled everywhere shows nothing of what it has shown before. -/
theorem Fills.shows {attr : UInt8} {places : List (Nat × Nat)} {s s' : Console}
    (h : Fills attr places s s') (hall : ∀ r < 25, ∀ c < 80, (r, c) ∈ places) :
    (setCursor (getScreenOffset 0 0) s').Shows (.filled ⟨spaceChar, attr⟩) := by
  refine ⟨fun r c => h.filled (r.val, c.val) (hall r r.isLt c c.isLt), ?_⟩
  rw [setCursor_cursor _ _ (by decide)]
  rfl

end NickOS3.Lib
