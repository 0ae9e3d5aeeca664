import Mathlib.Algebra.Group.Nat.Defs
import Mathlib.Data.List.Range
import NickOS3.Words

/-!
# Blocks of memory

`memset` and `memcpy` step over words of 32 bits, while their callers count in bytes. What
they do in bytes, and when that is what the callers mean. Pointers wrap around, so that a long
enough loop comes back to its first word.
-/

namespace NickOS3.Lib

/-! ## The code -/

/-- Byte `k` of a word, the low byte being byte 0. -/
def byteOf (word k : Nat) : UInt8 := UInt8.ofNat (word / 256 ^ k)

/-- `*ptr = word`, for a word that does not run over the last address. -/
def storeWord (ptr word : Nat) (m : Bytes) : Bytes := fun x =>
  if ptr ≤ x ∧ x < ptr + 4 then byteOf word (x - ptr) else m x

/-- How far an address lies behind a pointer, where addresses wrap around. -/
def offset (ptr x : Nat) : Nat := u32 (x + 4294967296 - u32 ptr)

/-- The word at an address, where addresses wrap around. -/
def readWord (m : Bytes) (a : Nat) : Nat := Bytes.word (fun x => m (u32 x)) a

/-- `*ptr = word`, where addresses wrap around. -/
def writeWord (ptr word : Nat) (m : Bytes) : Bytes := fun x =>
  if x < 4294967296 ∧ offset ptr x < 4 then byteOf word (offset ptr x) else m x

/-- `memset`; `c` is the word that an `int` is passed as. -/
def memset (str c n : Nat) (m : Bytes) : Bytes :=
  (List.range n).foldl (fun m i => writeWord (str + 4 * i) c m) m

def memcpy (dest source n : Nat) (m : Bytes) : Bytes :=
  (List.range n).foldl (fun m i => writeWord (dest + 4 * i) (readWord m (source + 4 * i)) m) m

/-! ## What the callers mean -/

/-- The `n` bytes from `str` on are the low byte of `c`, and the others are as before. -/
def setBytes (str c n : Nat) (m : Bytes) : Bytes := fun x =>
  if x < 4294967296 ∧ offset str x < n then byteOf c 0 else m x

/-- The `n` bytes from `dest` on are those from `source` on, and the others are as before. -/
def copyBytes (dest source n : Nat) (m : Bytes) : Bytes := fun x =>
  if x < 4294967296 ∧ offset dest x < n then m (u32 (source + offset dest x)) else m x

/-- Ranges of `n` bytes without a common byte. -/
def DisjointRanges (dest source n : Nat) : Prop := n ≤ offset dest source ∧ n ≤ offset source dest

/-- The four bytes of `c` are alike as far as they lie in the range, and behind it, up to four
times its length, memory holds them already. -/
def MemsetFits (str c n : Nat) (m : Bytes) : Prop :=
  ∀ k < 4294967296, k < 4 * n →
    if k < n then byteOf c (k % 4) = byteOf c 0 else m (u32 (str + k)) = byteOf c (k % 4)

/-- Where behind the source the byte comes from that the loop writes as byte `k`: where the words
before it have written that place, it is a copy from further in front. The destination lies
`ahead` bytes behind the source. -/
def origin (ahead k : Nat) : Nat :=
  if 0 < ahead ∧ ahead ≤ k ∧ k - ahead < k / 4 * 4 then origin ahead (k - ahead) else k
termination_by k
decreasing_by omega

/-- The last byte that is written to an address, up to four times the length of the range, comes
from a byte of the source like the one that is meant there. -/
def MemcpyFits (dest source n : Nat) (m : Bytes) : Prop :=
  ∀ k < 4 * n, 4 * n ≤ k + 4294967296 →
    m (u32 (source + origin (offset source dest) k)) =
      copyBytes dest source n m (u32 (dest + k))

/-! ## Words and bytes -/

theorem byteOf_word (m : Bytes) (a : Nat) {k : Nat} (hk : k < 4) :
    byteOf (m.word a) k = m (a + k) := by
  have h₀ := (m a).toNat_lt
  have h₁ := (m (a + 1)).toNat_lt
  have h₂ := (m (a + 2)).toNat_lt
  have h₃ := (m (a + 3)).toNat_lt
  apply UInt8.toNat_inj.mp
  rw [byteOf, UInt8.toNat_ofNat', Bytes.word]
  obtain rfl | rfl | rfl | rfl : k = 0 ∨ k = 1 ∨ k = 2 ∨ k = 3 := by omega
  · simp only [Nat.pow_zero, Nat.div_one, Nat.add_zero]
    omega
  · omega
  · omega
  · omega

theorem byteOf_readWord (m : Bytes) (a : Nat) {k : Nat} (hk : k < 4) :
    byteOf (readWord m a) k = m (u32 (a + k)) :=
  byteOf_word (fun x => m (u32 x)) a hk

theorem storeWord_apply (ptr word : Nat) (m : Bytes) (x : Nat) :
    storeWord ptr word m x = if ptr ≤ x ∧ x < ptr + 4 then byteOf word (x - ptr) else m x := rfl

/-- Where the word does not run over the last address. -/
theorem writeWord_eq_storeWord {ptr : Nat} (h : ptr + 4 ≤ 4294967296) (word : Nat) (m : Bytes) :
    writeWord ptr word m = storeWord ptr word m := by
  funext x
  rw [writeWord, storeWord]
  by_cases hx : ptr ≤ x ∧ x < ptr + 4
  · have hoffset : offset ptr x = x - ptr := by
      unfold offset u32
      omega
    rw [if_pos hx, hoffset, if_pos (by omega)]
  · rw [if_neg hx, if_neg (by unfold offset u32; omega)]

/-! ## Offsets -/

section Offset

variable {ptr x k : Nat}

theorem offset_lt (ptr x : Nat) : offset ptr x < 4294967296 := u32_lt _

/-- A pointer that has gone on by `k`. -/
theorem offset_add (k : Nat) : u32 (offset (ptr + k) x + k) = offset ptr x := by
  unfold offset u32
  omega

theorem offset_of_add : offset ptr (u32 (ptr + k)) = u32 k := by
  unfold offset u32
  omega

theorem add_offset (hx : x < 4294967296) : u32 (ptr + offset ptr x) = x := by
  unfold offset u32
  omega

end Offset

/-! ## `memset` -/

section Memset

variable {str c n x : Nat} {m : Bytes}

theorem memset_succ : memset str c (n + 1) m = writeWord (str + 4 * n) c (memset str c n m) := by
  rw [memset, List.range_succ, List.foldl_append]
  rfl

/-- `memset` fills four times as many bytes as it is asked to, with the bytes of `c` in turn. -/
theorem memset_apply : memset str c n m x =
    if x < 4294967296 ∧ offset str x < 4 * n then byteOf c (offset str x % 4) else m x := by
  induction n with
  | zero =>
      rw [if_neg (by omega)]
      rfl
  | succ n ih =>
      have hlt := offset_lt str x
      have hlt' := offset_lt (str + 4 * n) x
      have hadd : u32 (offset (str + 4 * n) x + 4 * n) = offset str x := offset_add _
      unfold u32 at hadd
      rw [memset_succ, writeWord, ih]
      by_cases hword : x < 4294967296 ∧ offset (str + 4 * n) x < 4
      · have hbyte : offset str x % 4 = offset (str + 4 * n) x := by omega
        rw [if_pos hword, if_pos (by omega), hbyte]
      · rw [if_neg hword]
        by_cases hpassed : x < 4294967296 ∧ offset str x < 4 * n
        · rw [if_pos hpassed, if_pos (by omega)]
        · rw [if_neg hpassed, if_neg (by omega)]

/-- The loop from its first word on. -/
theorem memset_cons : memset str c (n + 1) m = memset (str + 4) c n (writeWord str c m) := by
  have hstep : ∀ i, str + 4 * (i + 1) = str + 4 + 4 * i := by omega
  rw [memset, List.range_succ_eq_map, List.foldl_cons, List.foldl_map, memset]
  simp only [Nat.succ_eq_add_one, hstep, Nat.mul_zero, Nat.add_zero]

theorem memset_eq_iff (str c n : Nat) (m : Bytes) :
    memset str c n m = setBytes str c n m ↔ MemsetFits str c n m := by
  constructor
  · intro h k hk hwritten
    have hoffset : offset str (u32 (str + k)) = k := by rw [offset_of_add, u32_of_lt hk]
    have hbyte := congrFun h (u32 (str + k))
    rw [memset_apply, hoffset, if_pos ⟨u32_lt _, hwritten⟩, setBytes, hoffset] at hbyte
    by_cases hin : k < n
    · rw [if_pos ⟨u32_lt _, hin⟩] at hbyte
      rw [if_pos hin]
      exact hbyte
    · rw [if_neg fun hboth => hin hboth.2] at hbyte
      rw [if_neg hin]
      exact hbyte.symm
  · intro h
    funext x
    rw [memset_apply, setBytes]
    by_cases hwritten : x < 4294967296 ∧ offset str x < 4 * n
    · have hfits := h (offset str x) (offset_lt _ _) hwritten.2
      rw [add_offset hwritten.1] at hfits
      rw [if_pos hwritten]
      by_cases hin : offset str x < n
      · rw [if_pos hin] at hfits
        rw [if_pos ⟨hwritten.1, hin⟩, hfits]
      · rw [if_neg hin] at hfits
        rw [if_neg fun hboth => hin hboth.2, hfits]
    · rw [if_neg hwritten, if_neg (by omega)]

end Memset

/-! ## `memcpy` -/

section Memcpy

variable {dest source i k n x : Nat} {m : Bytes}

theorem memcpy_succ : memcpy dest source (n + 1) m =
    writeWord (dest + 4 * n) (readWord (memcpy dest source n m) (source + 4 * n))
      (memcpy dest source n m) := by
  rw [memcpy, List.range_succ, List.foldl_append]
  rfl

theorem memcpy_outside (hx : ∀ k < 4 * n, u32 (dest + k) ≠ x) :
    memcpy dest source n m x = m x := by
  induction n with
  | zero => rfl
  | succ n ih =>
      rw [memcpy_succ, writeWord, if_neg, ih fun k hk => hx k (by omega)]
      rintro ⟨hlt, hword⟩
      refine hx (4 * n + offset (dest + 4 * n) x) (by omega) ?_
      rw [← Nat.add_assoc, add_offset hlt]

/-- A byte of the last word. -/
theorem memcpy_word {b : Nat} (hb : b < 4) :
    memcpy dest source (n + 1) m (u32 (dest + (4 * n + b))) =
      memcpy dest source n m (u32 (source + (4 * n + b))) := by
  have hoffset : offset (dest + 4 * n) (u32 (dest + (4 * n + b))) = b := by
    rw [← Nat.add_assoc, offset_of_add, u32_of_lt (by omega)]
  rw [memcpy_succ, writeWord, hoffset, if_pos ⟨u32_lt _, hb⟩, byteOf_readWord _ _ hb,
    Nat.add_assoc]

/-- What has been written stays until the loop comes back to it. -/
theorem memcpy_stays (hi : i ≤ n) (hk : k < 4 * i) (hlast : 4 * n ≤ k + 4294967296) :
    memcpy dest source n m (u32 (dest + k)) = memcpy dest source i m (u32 (dest + k)) := by
  induction n, hi using Nat.le_induction with
  | base => rfl
  | succ n hi ih =>
      rw [memcpy_succ, writeWord, if_neg, ih (by omega)]
      unfold offset u32
      omega

/-- The bytes that were asked for are copied when the words written do not reach them. -/
theorem memcpy_of_unwritten (hk : k < n) (hn : 4 * n ≤ 4294967296)
    (hsource : ∀ j < 4 * n, u32 (dest + j) ≠ u32 (source + k)) :
    memcpy dest source n m (u32 (dest + k)) = m (u32 (source + k)) := by
  obtain ⟨i, b, hb, rfl⟩ : ∃ i b, b < 4 ∧ k = 4 * i + b :=
    ⟨k / 4, k % 4, Nat.mod_lt _ (by decide), (Nat.div_add_mod k 4).symm⟩
  calc
    memcpy dest source n m (u32 (dest + (4 * i + b))) =
        memcpy dest source (i + 1) m (u32 (dest + (4 * i + b))) :=
      memcpy_stays (by omega) (by omega) (by omega)
    _ = memcpy dest source i m (u32 (source + (4 * i + b))) := memcpy_word hb
    _ = m (u32 (source + (4 * i + b))) := memcpy_outside fun j hj => hsource j (by omega)

/-- Where the last byte written to an address comes from. -/
theorem memcpy_origin (hdisjoint : DisjointRanges dest source n) (hi : i ≤ n) (hk : k < 4 * i)
    (hlast : 4 * i ≤ k + 4294967296) :
    memcpy dest source i m (u32 (dest + k)) =
      m (u32 (source + origin (offset source dest) k)) := by
  obtain ⟨hbehind, hahead⟩ := hdisjoint
  have hlt := offset_lt source dest
  have hsum : offset dest source = u32 (4294967296 - offset source dest) := by
    unfold offset u32
    omega
  have hdest : ∀ j, u32 (dest + j) = u32 (source + offset source dest + j) := by
    unfold offset u32
    omega
  unfold u32 at hsum
  induction i generalizing k with
  | zero => omega
  | succ i ih =>
      by_cases hword : k < 4 * i
      · rw [memcpy_stays (Nat.le_succ i) hword hlast]
        exact ih (by omega) hword (by omega)
      · obtain ⟨b, rfl⟩ := Nat.exists_eq_add_of_le (Nat.not_lt.mp hword)
        have hb : b < 4 := by omega
        have hstart : (4 * i + b) / 4 * 4 = 4 * i := by omega
        rw [memcpy_word hb, origin, hstart]
        split
        case isTrue hwritten =>
          -- the byte of the source is one that has been written
          have hplace : u32 (source + (4 * i + b)) =
              u32 (dest + (4 * i + b - offset source dest)) := by
            rw [hdest]
            congr 1
            omega
          rw [hplace]
          exact ih (by omega) hwritten.2.2 (by omega)
        case isFalse hunwritten =>
          refine memcpy_outside fun j hj => ?_
          rw [hdest]
          unfold u32
          omega

theorem memcpy_eq_iff (hdisjoint : DisjointRanges dest source n) :
    memcpy dest source n m = copyBytes dest source n m ↔ MemcpyFits dest source n m := by
  constructor
  · intro h k hk hlast
    rw [← memcpy_origin (m := m) hdisjoint (Nat.le_refl n) hk hlast, h]
  · intro h
    have hcopied : ∀ k < 4 * n, 4 * n ≤ k + 4294967296 →
        memcpy dest source n m (u32 (dest + k)) =
          copyBytes dest source n m (u32 (dest + k)) := fun k hk hlast =>
      (memcpy_origin hdisjoint (Nat.le_refl n) hk hlast).trans (h k hk hlast)
    have hn : 4 * n ≤ 8589934592 := by
      have hboth : offset dest source + offset source dest ≤ 4294967296 := by
        unfold offset u32
        omega
      unfold DisjointRanges at hdisjoint
      omega
    funext x
    by_cases hx : x < 4294967296 ∧ offset dest x < 4 * n
    · have hplace : u32 (dest + offset dest x) = x := add_offset hx.1
      have hlt := offset_lt dest x
      by_cases hagain : offset dest x + 4294967296 < 4 * n
      · have hround : u32 (dest + (offset dest x + 4294967296)) = u32 (dest + offset dest x) := by
          rw [← Nat.add_assoc]
          exact Nat.add_mod_right _ _
        have hplace' := hround.trans hplace
        have hbyte := hcopied (offset dest x + 4294967296) hagain (by omega)
        rwa [hplace'] at hbyte
      · have hbyte := hcopied (offset dest x) hx.2 (by omega)
        rwa [hplace] at hbyte
    · rw [memcpy_outside, copyBytes, if_neg (by omega)]
      rintro k hk rfl
      refine hx ⟨u32_lt _, ?_⟩
      rw [offset_of_add]
      exact Nat.lt_of_le_of_lt (Nat.mod_le _ _) hk

end Memcpy

/-! ## Accesses -/

/-- Memory, with the addresses of the bytes that were read and written. -/
structure Trace where
  bytes : Bytes
  reads : List Nat
  writes : List Nat

/-- The addresses of the bytes of a word. -/
def wordBytes (a : Nat) : List Nat := [u32 a, u32 (a + 1), u32 (a + 2), u32 (a + 3)]

/-- A word is copied. -/
def Trace.copyWord (dest source : Nat) (t : Trace) : Trace where
  bytes := writeWord dest (readWord t.bytes source) t.bytes
  reads := t.reads ++ wordBytes source
  writes := t.writes ++ wordBytes dest

/-- `memcpy` with its accesses. -/
def Trace.memcpy (dest source n : Nat) (t : Trace) : Trace :=
  (List.range n).foldl (fun t i => t.copyWord (dest + 4 * i) (source + 4 * i)) t

theorem mem_wordBytes {a x : Nat} : x ∈ wordBytes a ↔ ∃ k < 4, u32 (a + k) = x := by
  unfold wordBytes
  simp only [List.mem_cons, List.not_mem_nil, or_false]
  constructor
  · rintro (rfl | rfl | rfl | rfl)
    · exact ⟨0, by decide, rfl⟩
    · exact ⟨1, by decide, rfl⟩
    · exact ⟨2, by decide, rfl⟩
    · exact ⟨3, by decide, rfl⟩
  · rintro ⟨k, hk, rfl⟩
    obtain rfl | rfl | rfl | rfl : k = 0 ∨ k = 1 ∨ k = 2 ∨ k = 3 := by omega
    · exact .inl rfl
    · exact .inr (.inl rfl)
    · exact .inr (.inr (.inl rfl))
    · exact .inr (.inr (.inr rfl))

theorem Trace.memcpy_succ (dest source n : Nat) (t : Trace) :
    t.memcpy dest source (n + 1) =
      (t.memcpy dest source n).copyWord (dest + 4 * n) (source + 4 * n) := by
  rw [Trace.memcpy, List.range_succ, List.foldl_append]
  rfl

theorem Trace.memcpy_bytes (dest source n : Nat) (t : Trace) :
    (t.memcpy dest source n).bytes = Lib.memcpy dest source n t.bytes := by
  induction n with
  | zero => rfl
  | succ n ih => rw [Trace.memcpy_succ, Lib.memcpy_succ, Trace.copyWord, ih]

/-- Every byte up to four times the length is written. -/
theorem Trace.mem_writes_of_lt {dest source n k : Nat} {t : Trace} (hk : k < 4 * n) :
    u32 (dest + k) ∈ (t.memcpy dest source n).writes := by
  induction n with
  | zero => omega
  | succ n ih =>
      rw [Trace.memcpy_succ, Trace.copyWord, List.mem_append, mem_wordBytes]
      by_cases hword : k < 4 * n
      · exact .inl (ih hword)
      · refine .inr ⟨k - 4 * n, by omega, ?_⟩
        rw [Nat.add_assoc, Nat.add_sub_cancel' (Nat.not_lt.mp hword)]

end NickOS3.Lib
