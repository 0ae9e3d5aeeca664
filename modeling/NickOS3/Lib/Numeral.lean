import Mathlib.Data.Nat.Digits.Lemmas
import NickOS3.Words

/-!
# Numerals

`itoa` writes the digits of a number with the least significant one first, behind them its
prefix from right to left, and turns the whole around in place. The string that it leaves
reads back as the number.
-/

namespace NickOS3.Lib

/-! ## `reverse` and `itoa` -/

/-- The loop of `reverse`. An empty string has `end = -1`; it is turned around like a string
of one character. -/
def reverseLoop (str start finish : Nat) (m : Bytes) : Bytes :=
  if start < finish then
    let tmp := m (str + start)
    let m := Function.update m (str + start) (m (str + finish))
    let m := Function.update m (str + finish) tmp
    reverseLoop str (start + 1) (finish - 1) m
  else m
termination_by finish - start

def reverse (str length : Nat) (m : Bytes) : Bytes := reverseLoop str 0 (length - 1) m

/-- `'0'` -/
def charZero : UInt8 := 48

/-- `(rem > 9) ? (rem - 10) + 'a' : rem + '0'` -/
def digitChar (rem : Nat) : UInt8 :=
  UInt8.ofNat (if rem > 9 then rem - 10 + 97 else rem + 48)

/-- `str[i++] = c` -/
def putChar (str : Nat) (c : UInt8) (s : Bytes × Nat) : Bytes × Nat :=
  (Function.update s.1 (str + s.2) c, s.2 + 1)

/-- `while (num != 0)`, for so many rounds: `none` when the loop has not ended by then or a
division by zero traps. -/
def digitLoop (str base : Nat) : Nat → Nat → Bytes × Nat → Option (Bytes × Nat)
  | 0, _, _ => none
  | rounds + 1, num, s =>
      if num = 0 then some s
      else if base = 0 then none
      else digitLoop str base rounds (num / base) (putChar str (digitChar (num % base)) s)

/-- `BASE_HEX` -/
def BASE_HEX : Nat := 16

/-- `BASE_BIN` -/
def BASE_BIN : Nat := 2

/-- The prefix behind the digits, from right to left. -/
def putPrefix (str base : Nat) (s : Bytes × Nat) : Bytes × Nat :=
  let s := if base = BASE_HEX then putChar str charZero (putChar str 120 s) else s
  if base = BASE_BIN then putChar str charZero (putChar str 98 s) else s

/-- `itoa`: the pointer it returns and the memory it leaves. A loop that divides a number of 32
bits by 2 or more has ended when the 33rd round begins. -/
def itoa (num str base : Nat) (m : Bytes) : Option (Nat × Bytes) :=
  if num = 0 then
    let (m, i) := putChar str charZero (m, 0)
    some (str, Function.update m (str + i) 0)
  else do
    -- `num` is unsigned, so this is false
    let isNegative := decide (num < 0) && decide (base = 10)
    let num := if isNegative then u32 (4294967296 - num) else num
    let s ← digitLoop str base 33 num (m, 0)
    let s := if isNegative then putChar str 45 s else s
    let s := putPrefix str base s
    let m := Function.update s.1 (str + s.2) 0
    return (str, reverse str s.2 m)

/-! ## Strings and numerals -/

/-- The memory differs by a string that was written at an address, its NUL included. -/
structure Wrote (before after : Bytes) (a : Nat) (s : List UInt8) : Prop where
  chars : ∀ i c, s[i]? = some c → after (a + i) = c
  frame : ∀ x, x < a ∨ a + s.length ≤ x → after x = before x

/-- The value of a digit `0-9a-z`. -/
def digitValue (c : UInt8) : Option Nat :=
  if 48 ≤ c ∧ c ≤ 57 then some (c.toNat - 48)
  else if 97 ≤ c ∧ c ≤ 122 then some (c.toNat - 97 + 10)
  else none

/-- The next digit behind those that make up a number. -/
def readDigit (base : Nat) (n : Nat) (c : UInt8) : Option Nat := do
  let d ← digitValue c
  if d < base then some (n * base + d) else none

/-- The number that digits denote in a base, the most significant one first. -/
def readDigits (base : Nat) (digits : List UInt8) : Option Nat :=
  digits.foldlM (readDigit base) 0

/-- The prefix `0x` or `0b` of a number that is not zero. -/
def numeralPrefix (num base : Nat) : List UInt8 :=
  if num = 0 then []
  else if base = 16 then [48, 120]
  else if base = 2 then [48, 98]
  else []

/-- Digits that denote a number and have no zero in front of it. -/
structure Denotes (base num : Nat) (digits : List UInt8) : Prop where
  nonempty : digits ≠ []
  value : readDigits base digits = some num
  noLeadingZero : num ≠ 0 → digits.head? ≠ some charZero

/-! ## The digits -/

theorem digitValue_digitChar : ∀ d < 36, digitValue (digitChar d) = some d := by decide

theorem digitChar_ne_zero : ∀ d < 36, d ≠ 0 → digitChar d ≠ charZero := by decide

theorem digitChar_ne_nul : ∀ d < 36, digitChar d ≠ 0 := by decide

theorem readDigits_reverse {base : Nat} (hbase : base ≤ 36) (ds : List Nat)
    (hds : ∀ d ∈ ds, d < base) :
    readDigits base (ds.map digitChar).reverse = some (Nat.ofDigits base ds) := by
  induction ds with
  | nil => rfl
  | cons d ds ih =>
      have hd : d < base := hds d List.mem_cons_self
      have hrest := ih fun e he => hds e (List.mem_cons_of_mem _ he)
      have hchar := digitValue_digitChar d (by omega)
      unfold readDigits at hrest ⊢
      rw [List.map_cons, List.reverse_cons, List.foldlM_append, hrest]
      simp only [List.foldlM_cons, List.foldlM_nil, Option.bind_eq_bind, Option.bind_some,
        readDigit, hchar, if_pos hd, Nat.ofDigits_cons, Option.pure_def, Option.some.injEq]
      rw [Nat.mul_comm, Nat.add_comm]

theorem denotes_digits {num base : Nat} (hnum : num ≠ 0) (hlow : 2 ≤ base) (hhigh : base ≤ 36) :
    Denotes base num ((Nat.digits base num).map digitChar).reverse := by
  have hbase : 1 < base := hlow
  have hlt : ∀ d ∈ Nat.digits base num, d < base := fun d hd => Nat.digits_lt_base hbase hd
  have hnil : Nat.digits base num ≠ [] := Nat.digits_ne_nil_iff_ne_zero.mpr hnum
  constructor
  · intro h
    rw [List.reverse_eq_nil_iff, List.map_eq_nil_iff] at h
    exact hnil h
  · rw [readDigits_reverse hhigh _ hlt, Nat.ofDigits_digits]
  · intro _ h
    rw [List.head?_reverse, List.getLast?_map, List.getLast?_eq_some_getLast hnil] at h
    have hlast := Nat.getLast_digit_ne_zero base hnum
    have hmem := hlt _ (List.getLast_mem hnil)
    exact digitChar_ne_zero _ (by omega) hlast (Option.some.inj h)

/-! ## Writing the string -/

theorem Wrote.nil (m : Bytes) (a : Nat) : Wrote m m a [] :=
  ⟨by simp, fun _ _ => rfl⟩

theorem Wrote.putChar {before after : Bytes} {a : Nat} {s : List UInt8}
    (h : Wrote before after a s) (c : UInt8) :
    Wrote before (Function.update after (a + s.length) c) a (s ++ [c]) := by
  constructor
  · intro i d hd
    by_cases hi : i = s.length
    · subst hi
      rw [List.getElem?_append_right (Nat.le_refl _), Nat.sub_self] at hd
      rw [Function.update_self]
      exact Option.some.inj hd
    · have hlt : i < (s ++ [c]).length := (List.getElem?_eq_some_iff.mp hd).1
      rw [List.length_append, List.length_singleton] at hlt
      rw [List.getElem?_append_left (by omega)] at hd
      rw [Function.update_of_ne (by omega)]
      exact h.chars i d hd
  · intro x hx
    rw [List.length_append, List.length_singleton] at hx
    rw [Function.update_of_ne (by omega)]
    exact h.frame x (by omega)

/-- The loop of `reverse` mirrors the bytes between its two indices. -/
theorem reverseLoop_apply (str start finish : Nat) (m : Bytes) (x : Nat) :
    reverseLoop str start finish m x =
      if str + start ≤ x ∧ x ≤ str + finish then m (str + start + (str + finish) - x)
      else m x := by
  induction start, finish, m using reverseLoop.induct str with
  | case1 start finish m hlt tmp m₁ m₂ ih =>
      rw [reverseLoop, if_pos hlt, ih]
      have hat (y : Nat) : m₂ y = if y = str + finish then m (str + start)
          else if y = str + start then m (str + finish) else m y := by
        by_cases hy : y = str + finish
        · rw [if_pos hy, hy]
          exact Function.update_self _ _ _
        · rw [if_neg hy]
          exact (Function.update_of_ne hy _ _).trans (Function.update_apply _ _ _ _)
      by_cases hin : str + start ≤ x ∧ x ≤ str + finish
      · rw [if_pos hin]
        by_cases hends : x = str + start ∨ x = str + finish
        · rw [if_neg (by omega), hat]
          rcases hends with rfl | rfl
          · rw [if_neg (by omega), if_pos rfl]
            congr 1
            omega
          · rw [if_pos rfl]
            congr 1
            omega
        · rw [if_pos (by omega), hat, if_neg (by omega), if_neg (by omega)]
          congr 1
          omega
      · rw [if_neg hin, if_neg (by omega), hat, if_neg (by omega), if_neg (by omega)]
  | case2 start finish m hnot =>
      rw [reverseLoop, if_neg hnot]
      split
      · congr 1
        omega
      · rfl

/-- `reverse` turns a string around and leaves its NUL where it is. -/
theorem Wrote.reverse {before after : Bytes} {a : Nat} {s : List UInt8}
    (h : Wrote before after a (s ++ [0])) (hs : s ≠ []) :
    Wrote before (reverse a s.length after) a (s.reverse ++ [0]) := by
  have hpos : 0 < s.length := List.length_pos_of_ne_nil hs
  constructor
  · intro i c hc
    have hlt : i < (s.reverse ++ [0]).length := (List.getElem?_eq_some_iff.mp hc).1
    rw [List.length_append, List.length_reverse, List.length_singleton] at hlt
    rw [Lib.reverse, reverseLoop_apply]
    by_cases hi : i < s.length
    · rw [List.getElem?_append_left (by rwa [List.length_reverse]),
        List.getElem?_reverse hi] at hc
      rw [if_pos (by omega)]
      have hplace : a + 0 + (a + (s.length - 1)) - (a + i) = a + (s.length - 1 - i) := by omega
      rw [hplace]
      apply h.chars
      rw [List.getElem?_append_left (by omega)]
      exact hc
    · have hi : i = s.length := by omega
      subst hi
      rw [List.getElem?_append_right (by rw [List.length_reverse]), List.length_reverse,
        Nat.sub_self] at hc
      rw [if_neg (by omega)]
      apply h.chars
      rw [List.getElem?_append_right (Nat.le_refl _), Nat.sub_self]
      exact hc
  · intro x hx
    rw [List.length_append, List.length_reverse, List.length_singleton] at hx
    rw [Lib.reverse, reverseLoop_apply, if_neg (by omega)]
    apply h.frame
    rw [List.length_append, List.length_singleton]
    exact hx

/-- The loop ends within as many rounds as the number has bits, and has written the digits. -/
theorem Wrote.digitLoop {str base : Nat} (hbase : 2 ≤ base) (before : Bytes) (rounds : Nat) :
    ∀ (num : Nat) (s : List UInt8) (m : Bytes), num < 2 ^ rounds → Wrote before m str s →
      ∃ m', Lib.digitLoop str base (rounds + 1) num (m, s.length) =
          some (m', (s ++ (Nat.digits base num).map digitChar).length) ∧
        Wrote before m' str (s ++ (Nat.digits base num).map digitChar) := by
  induction rounds with
  | zero =>
      intro num s m hnum h
      have hzero : num = 0 := by omega
      subst hzero
      rw [Nat.digits_zero, List.map_nil, List.append_nil]
      exact ⟨m, rfl, h⟩
  | succ rounds ih =>
      intro num s m hnum h
      by_cases hzero : num = 0
      · subst hzero
        rw [Nat.digits_zero, List.map_nil, List.append_nil]
        exact ⟨m, rfl, h⟩
      · have hdiv : num / base < 2 ^ rounds := by
          apply Nat.div_lt_of_lt_mul
          calc num < 2 ^ (rounds + 1) := hnum
            _ = 2 * 2 ^ rounds := by rw [pow_succ, Nat.mul_comm]
            _ ≤ base * 2 ^ rounds := Nat.mul_le_mul_right _ hbase
        have hput := h.putChar (digitChar (num % base))
        obtain ⟨m', hrun, hwrote⟩ := ih _ _ _ hdiv hput
        have hdigits : Nat.digits base num = num % base :: Nat.digits base (num / base) :=
          Nat.digits_def' hbase (Nat.pos_of_ne_zero hzero)
        rw [List.append_assoc] at hrun hwrote
        rw [hdigits, List.map_cons]
        refine ⟨m', ?_, hwrote⟩
        rw [Lib.digitLoop, if_neg hzero, if_neg (by omega)]
        rw [List.length_append, List.length_singleton] at hrun
        exact hrun

theorem length_digits_le {num base : Nat} (hnum : num < 2 ^ 32) (hbase : 2 ≤ base) :
    (Nat.digits base num).length ≤ 32 := by
  apply (Nat.digits_length_le_iff hbase num).mpr
  calc num < 2 ^ 32 := hnum
    _ ≤ base ^ 32 := Nat.pow_le_pow_left hbase 32

theorem numeralPrefix_cases (num base : Nat) :
    numeralPrefix num base = [] ∨ numeralPrefix num base = [48, 120] ∨
      numeralPrefix num base = [48, 98] := by
  unfold numeralPrefix
  split
  · exact Or.inl rfl
  · split
    · exact Or.inr (Or.inl rfl)
    · split
      · exact Or.inr (Or.inr rfl)
      · exact Or.inl rfl

theorem length_numeralPrefix_le (num base : Nat) : (numeralPrefix num base).length ≤ 2 := by
  rcases numeralPrefix_cases num base with h | h | h <;> rw [h] <;> decide

theorem nul_notMem_numeralPrefix (num base : Nat) : 0 ∉ numeralPrefix num base := by
  rcases numeralPrefix_cases num base with h | h | h <;> rw [h] <;> decide

/-! ## `itoa` -/

/-- A string under construction: its index stands behind its last character. -/
def Holding (before : Bytes) (str : Nat) (chars : List UInt8) (s : Bytes × Nat) : Prop :=
  s.2 = chars.length ∧ Wrote before s.1 str chars

theorem Holding.putChar {before : Bytes} {str : Nat} {chars : List UInt8} {s : Bytes × Nat}
    (h : Holding before str chars s) (c : UInt8) :
    Holding before str (chars ++ [c]) (putChar str c s) := by
  constructor
  · rw [List.length_append, List.length_singleton, ← h.1]
    rfl
  · have hput := h.2.putChar c
    rw [← h.1] at hput
    exact hput

/-- The prefix is a string from right to left. -/
theorem Holding.putPrefix {before : Bytes} {num str base : Nat} {chars : List UInt8}
    {s : Bytes × Nat} (h : Holding before str chars s) (hnum : num ≠ 0) :
    Holding before str (chars ++ (numeralPrefix num base).reverse) (putPrefix str base s) := by
  rw [numeralPrefix, if_neg hnum]
  by_cases hhex : base = 16
  · subst hhex
    have hput := (h.putChar 120).putChar charZero
    rw [List.append_assoc] at hput
    exact hput
  · by_cases hbin : base = 2
    · subst hbin
      have hput := (h.putChar 98).putChar charZero
      rw [List.append_assoc] at hput
      exact hput
    · have hsame : Lib.putPrefix str base s = s := by
        rw [Lib.putPrefix, BASE_HEX, BASE_BIN, if_neg hbin, if_neg hhex]
      rw [if_neg hhex, if_neg hbin, List.reverse_nil, List.append_nil, hsame]
      exact h

/-- The string is ended by a NUL and turned around. -/
theorem Holding.reverse {before : Bytes} {str : Nat} {chars : List UInt8} {s : Bytes × Nat}
    (h : Holding before str chars s) (hchars : chars ≠ []) :
    Wrote before (reverse str s.2 (Function.update s.1 (str + s.2) 0)) str
      (chars.reverse ++ [0]) := by
  have hnul := (h.2.putChar 0).reverse hchars
  rw [← h.1] at hnul
  exact hnul

/-- What `itoa` leaves at its buffer: a numeral of the number behind its prefix, within 35
bytes, and nothing else. -/
structure LeavesNumeral (num str base : Nat) (before after : Bytes) (digits : List UInt8) :
    Prop where
  string : Wrote before after str (numeralPrefix num base ++ digits ++ [0])
  noNul : 0 ∉ numeralPrefix num base ++ digits
  fits : (numeralPrefix num base ++ digits ++ [0]).length ≤ 35
  denotes : Denotes base num digits

/-- `itoa` ends for every number of 32 bits in every base from 2 to 36, and the string that it
leaves denotes the number. -/
theorem itoa_leaves_numeral {num base : Nat} (hnum : num < 2 ^ 32) (hlow : 2 ≤ base)
    (hhigh : base ≤ 36) (str : Nat) (before : Bytes) :
    ∃ after digits, itoa num str base before = some (str, after) ∧
      LeavesNumeral num str base before after digits := by
  by_cases hzero : num = 0
  · subst hzero
    refine ⟨_, [charZero], rfl, ?_, ?_, ?_, ?_⟩
    · exact ((Wrote.nil before str).putChar charZero).putChar 0
    · exact show (0 : UInt8) ∉ [charZero] by decide
    · exact show ([charZero, 0] : List UInt8).length ≤ 35 by decide
    · have hread : readDigits base [charZero] = some 0 := by
        have hpos : 0 < base := by omega
        have hvalue : digitValue charZero = some 0 := rfl
        simp [readDigits, readDigit, hvalue, hpos]
      exact ⟨List.cons_ne_nil _ _, hread, fun h => absurd rfl h⟩
  · have hdenotes := denotes_digits hzero hlow hhigh
    have hdigits := length_digits_le hnum hlow
    obtain ⟨m, hrun, hwrote⟩ := Wrote.digitLoop hlow before 32 num [] before hnum
      (Wrote.nil before str)
    rw [List.nil_append] at hrun hwrote
    have hnil : (Nat.digits base num).map digitChar ≠ [] := by
      intro h
      exact hdenotes.nonempty (by rw [h, List.reverse_nil])
    have hheld : Holding before str ((Nat.digits base num).map digitChar)
      (m, ((Nat.digits base num).map digitChar).length) := ⟨rfl, hwrote⟩
    have hprefixed : Holding before str (_ ++ (numeralPrefix num base).reverse)
      (putPrefix str base _) := hheld.putPrefix hzero
    have hstring := hprefixed.reverse (List.append_ne_nil_of_left_ne_nil hnil _)
    rw [List.reverse_append, List.reverse_reverse] at hstring
    refine ⟨_, _, ?_, hstring, ?_, ?_, hdenotes⟩
    · rw [itoa, if_neg hzero]
      simp only [Nat.not_lt_zero, decide_false, Bool.false_and, Bool.false_eq_true, if_false]
      rw [show (before, 0) = (before, ([] : List UInt8).length) from rfl, hrun]
      rfl
    · intro hmem
      rcases List.mem_append.mp hmem with hmem | hmem
      · exact nul_notMem_numeralPrefix num base hmem
      · obtain ⟨d, hd, hnul⟩ := List.mem_map.mp (List.mem_reverse.mp hmem)
        have hlt : d < base := Nat.digits_lt_base hlow hd
        exact digitChar_ne_nul d (by omega) hnul
    · have hprefix := length_numeralPrefix_le num base
      rw [List.length_append, List.length_append, List.length_reverse, List.length_map,
        List.length_singleton]
      omega

/-- The word `0xffffffff` in base 16, into a buffer at address 0 of an empty memory. -/
theorem itoa_leaves_numeral_hex :
    ∃ after digits, itoa 4294967295 0 16 (fun _ => 0) = some (0, after) ∧
      LeavesNumeral 4294967295 0 16 (fun _ => 0) after digits :=
  itoa_leaves_numeral (by decide) (by decide) (by decide) 0 _

end NickOS3.Lib
