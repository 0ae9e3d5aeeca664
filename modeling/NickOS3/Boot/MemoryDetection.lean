import NickOS3.Words
import Mathlib.Logic.Function.Basic

/-!
# Memory detection

`DetectMemory` asks the firmware for its memory map, entry by entry, and
`getUsableMemoryRegions` picks the entries of type 1. The firmware gives a finite sequence
of entries of 24 bytes and answers the call for the last one with `ebx = 0`; the loop tests
this before it counts the entry, so the last one is never counted.
-/

namespace NickOS3.Boot

/-- The 24 bytes that a call of the firmware writes. -/
abbrev SmapEntry := Fin 24 → UInt8

/-- `Type`, the word at offset 16. -/
def SmapEntry.type (e : SmapEntry) : Nat :=
  (e 16).toNat + 256 * (e 17).toNat + 65536 * (e 18).toNat + 16777216 * (e 19).toNat

/-- The address of the table, `0x5000`. -/
def smapTable : Nat := 0x5000

/-- The address of the page directory, `0x6000`. -/
def pageDirectory : Nat := 0x6000

/-! ## `DetectMemory` -/

/-- What the loop of `DetectMemory` changes. -/
structure Detection where
  memory : Bytes
  di : Nat
  memoryRegionCount : Nat

/-- `int 0x15`: the firmware writes the next entry at `es:di`, with `es` zero. -/
def Detection.int15 (s : Detection) (e : SmapEntry) : Detection :=
  { s with
    memory := fun a =>
      if s.di ≤ a ∧ a < s.di + 24 then e (Fin.ofNat 24 (a - s.di)) else s.memory a }

/-- `add di, 24` and `inc byte [MemoryRegionCount]` -/
def Detection.advance (s : Detection) : Detection :=
  { s with
    di := u16 (s.di + 24)
    memoryRegionCount := u8 (s.memoryRegionCount + 1) }

/-- `.repeat`, with the entries that the firmware still has: the call for the last of them
returns `ebx = 0`. -/
def detectLoop : SmapEntry → List SmapEntry → Detection → Detection
  | e, [], s => s.int15 e
  | e, e' :: rest, s => detectLoop e' rest (s.int15 e).advance

/-- The firmware's map has a first entry and others. -/
def detectMemory (first : SmapEntry) (rest : List SmapEntry) (memory : Bytes) : Detection :=
  detectLoop first rest ⟨memory, smapTable, 0⟩

@[simp] theorem advance_di (s : Detection) (e : SmapEntry) :
    (s.int15 e).advance.di = u16 (s.di + 24) := rfl

@[simp] theorem advance_count (s : Detection) (e : SmapEntry) :
    (s.int15 e).advance.memoryRegionCount = u8 (s.memoryRegionCount + 1) := rfl

/-! ## `getUsableMemoryRegions` -/

/-- The entry that a `MemoryMapEntry*` points to. -/
def entryAt (memory : Bytes) (mMap : Nat) : SmapEntry := fun k => memory (mMap + k)

/-- `usableMemoryRegions` and `count`; the indices that were written are history. -/
structure UsableRegions where
  usableMemoryRegions : Nat → Nat
  count : Nat
  written : List Nat

/-- `usableMemoryRegions[count++]=mMap` -/
def UsableRegions.add (u : UsableRegions) (mMap : Nat) : UsableRegions where
  usableMemoryRegions := Function.update u.usableMemoryRegions u.count mMap
  count := u.count + 1
  written := u.count :: u.written

/-- The loop of `getUsableMemoryRegions`, for the rounds that are left. -/
def usableLoop (memory : Bytes) : Nat → Nat → UsableRegions → UsableRegions
  | 0, _, u => u
  | n + 1, mMap, u =>
      let mMap := mMap + 24
      if (entryAt memory mMap).type ≠ 1 then usableLoop memory n mMap u
      else usableLoop memory n mMap (u.add mMap)

/-- `mMap` starts one entry before the table. -/
def getUsableMemoryRegions (memory : Bytes) (mrc : Nat) : UsableRegions :=
  usableLoop memory mrc (smapTable - 24) ⟨fun _ => 0, 0, []⟩

/-- The pointers that the array holds. -/
def UsableRegions.pointers (u : UsableRegions) : List Nat :=
  (List.range u.count).map u.usableMemoryRegions

/-! ## What the loops do -/

section Loops

variable {e : SmapEntry} {rest : List SmapEntry} {s : Detection}

/-- The last entry is not counted. -/
theorem detectLoop_count (h : s.memoryRegionCount < 256) :
    (detectLoop e rest s).memoryRegionCount = u8 (s.memoryRegionCount + rest.length) := by
  induction rest generalizing e s with
  | nil => exact (Nat.mod_eq_of_lt h).symm
  | cons e' rest ih =>
      have hlt : (s.int15 e).advance.memoryRegionCount < 256 := by
        rw [advance_count, u8]
        omega
      rw [detectLoop, ih hlt, List.length_cons, advance_count]
      unfold u8
      omega

theorem detectMemory_count {first : SmapEntry} {memory : Bytes} :
    (detectMemory first rest memory).memoryRegionCount = u8 rest.length := by
  rw [detectMemory, detectLoop_count (show 0 < 256 by decide), Nat.zero_add]

theorem entryAt_int15 : entryAt (s.int15 e).memory s.di = e := by
  funext k
  have hin : s.di ≤ s.di + (k : Nat) ∧ s.di + (k : Nat) < s.di + 24 := by omega
  simp only [entryAt, Detection.int15, if_pos hin, Nat.add_sub_cancel_left]
  exact congrArg e (Fin.ext (Nat.mod_eq_of_lt k.isLt))

/-- A call of the firmware writes behind the entries that it gave before. -/
theorem int15_below {a : Nat} (ha : a < s.di) : (s.int15 e).memory a = s.memory a := by
  have hout : ¬ (s.di ≤ a ∧ a < s.di + 24) := by omega
  simp only [Detection.int15, if_neg hout]

theorem detectLoop_below {a : Nat} (ha : a < s.di)
    (hfits : s.di + 24 * (rest.length + 1) ≤ 65536) :
    (detectLoop e rest s).memory a = s.memory a := by
  induction rest generalizing e s with
  | nil => exact int15_below ha
  | cons e' rest ih =>
      rw [List.length_cons] at hfits
      have hdi : (s.int15 e).advance.di = s.di + 24 := by
        rw [advance_di, u16]
        omega
      rw [detectLoop, ih (by omega) (by omega)]
      exact int15_below ha

/-- The table holds the entries in order. -/
theorem detectLoop_table (hfits : s.di + 24 * (rest.length + 1) ≤ 65536) {i : Nat}
    {x : SmapEntry} (hx : (e :: rest)[i]? = some x) :
    entryAt (detectLoop e rest s).memory (s.di + 24 * i) = x := by
  induction rest generalizing e s i with
  | nil =>
      cases i with
      | zero => exact entryAt_int15.trans (Option.some.inj hx)
      | succ i => cases hx
  | cons e' rest ih =>
      rw [List.length_cons] at hfits
      have hdi : (s.int15 e).advance.di = s.di + 24 := by
        rw [advance_di, u16]
        omega
      cases i with
      | zero =>
          funext k
          have hk : (entryAt (s.int15 e).memory s.di) k = e k := by
            rw [entryAt_int15]
          rw [detectLoop, entryAt, detectLoop_below (by omega) (by omega)]
          exact hk.trans (congrFun (Option.some.inj hx) k)
      | succ i =>
          have hnext := ih (e := e') (s := (s.int15 e).advance) (i := i) (by omega) hx
          rw [hdi] at hnext
          rw [detectLoop, show s.di + 24 * (i + 1) = s.di + 24 + 24 * i by omega, hnext]

end Loops

section Usable

variable {memory : Bytes} {n mMap : Nat} {u : UsableRegions}

/-- The array holds a pointer at each index below the count, and was written there only. -/
def UsableRegions.Filled (u : UsableRegions) (pointers : List Nat) : Prop :=
  u.pointers = pointers ∧ u.written = (List.range u.count).reverse

theorem UsableRegions.Filled.add {pointers : List Nat} (h : u.Filled pointers) :
    (u.add mMap).Filled (pointers ++ [mMap]) := by
  refine ⟨?_, ?_⟩
  · have hsame : (List.range u.count).map (u.add mMap).usableMemoryRegions = u.pointers := by
      apply List.map_congr_left
      intro k hk
      exact Function.update_of_ne (Nat.ne_of_lt (List.mem_range.mp hk)) _ _
    have hlast : (u.add mMap).usableMemoryRegions u.count = mMap := Function.update_self ..
    have hcount : (u.add mMap).count = u.count + 1 := rfl
    rw [UsableRegions.pointers, hcount, List.range_succ, List.map_append, hsame, h.1,
      List.map_singleton, hlast]
  · rw [UsableRegions.add, List.range_succ, List.reverse_append, h.2]
    rfl

/-- The loop goes through the entries behind `mMap` and keeps those of type 1. -/
theorem usableLoop_filled {pointers : List Nat} (h : u.Filled pointers) :
    (usableLoop memory n mMap u).Filled (pointers ++
      ((List.range n).map fun i => mMap + 24 + 24 * i).filter
        fun p => (entryAt memory p).type = 1) := by
  induction n generalizing mMap u pointers with
  | zero => simpa [usableLoop] using h
  | succ n ih =>
      have hshift : ((List.range n).map fun i => mMap + 24 + 24 * (i + 1))
          = (List.range n).map fun i => mMap + 24 + 24 + 24 * i := by
        apply List.map_congr_left
        intro i _
        omega
      rw [usableLoop, List.range_succ_eq_map, List.map_cons, List.map_map, Function.comp_def]
      simp only [Nat.mul_zero, Nat.add_zero, Nat.succ_eq_add_one, hshift]
      by_cases htype : (entryAt memory (mMap + 24)).type = 1
      · rw [if_neg (not_not_intro htype), List.filter_cons_of_pos (by simpa using htype),
          ← List.singleton_append, ← List.append_assoc]
        exact ih h.add
      · rw [if_pos htype, List.filter_cons_of_neg (by simpa using htype)]
        exact ih h

/-- `getUsableMemoryRegions` gives the entries of type 1 among as many as it is told. -/
theorem getUsableMemoryRegions_filled (mrc : Nat) :
    (getUsableMemoryRegions memory mrc).Filled
      (((List.range mrc).map fun i => smapTable + 24 * i).filter
        fun p => (entryAt memory p).type = 1) := by
  have h : (⟨fun _ => 0, 0, []⟩ : UsableRegions).Filled [] := ⟨rfl, rfl⟩
  exact usableLoop_filled h

end Usable

/-! ## Completeness -/

/-- The pointers to the entries of type 1 of a table that holds the map. -/
def usableOf (entries : List SmapEntry) : List Nat :=
  ((List.range entries.length).filter fun i => ((entries[i]?.map SmapEntry.type) = some 1)).map
    fun i => smapTable + 24 * i

/-- Memory detection is complete: the table holds the map below the page directory and is
counted, and its usable entries are found within the array of ten. -/
structure Complete (entries : List SmapEntry) (s : Detection) (u : UsableRegions) : Prop where
  table : ∀ (i : Nat) (x : SmapEntry), entries[i]? = some x →
    entryAt s.memory (smapTable + 24 * i) = x
  count : s.memoryRegionCount = entries.length
  below : smapTable + 24 * entries.length ≤ pageDirectory
  usable : u.pointers = usableOf entries
  usableCount : u.count = (usableOf entries).length
  bounds : ∀ i ∈ u.written, i < 10

/-- What is found of a map that ends below the page directory: the table holds all of it, and
all but the last entry are counted and searched. -/
theorem detectMemory_finds {first : SmapEntry} {rest : List SmapEntry} {memory : Bytes}
    (hbelow : smapTable + 24 * (rest.length + 1) ≤ pageDirectory) :
    (∀ (i : Nat) (x : SmapEntry), (first :: rest)[i]? = some x →
      entryAt (detectMemory first rest memory).memory (smapTable + 24 * i) = x) ∧
    (detectMemory first rest memory).memoryRegionCount = rest.length ∧
    (getUsableMemoryRegions (detectMemory first rest memory).memory
      (detectMemory first rest memory).memoryRegionCount).pointers
        = usableOf (first :: rest).dropLast := by
  have hfits : smapTable + 24 * (rest.length + 1) ≤ 65536 :=
    Nat.le_trans hbelow (by decide)
  have htable : ∀ (i : Nat) (x : SmapEntry), (first :: rest)[i]? = some x →
      entryAt (detectMemory first rest memory).memory (smapTable + 24 * i) = x :=
    fun i x hx => detectLoop_table (s := ⟨memory, smapTable, 0⟩) hfits hx
  have hcount : (detectMemory first rest memory).memoryRegionCount = rest.length := by
    rw [detectMemory_count, u8, Nat.mod_eq_of_lt]
    unfold smapTable pageDirectory at hbelow
    omega
  refine ⟨htable, hcount, ?_⟩
  rw [(getUsableMemoryRegions_filled _).1, hcount, usableOf, List.filter_map,
    List.length_dropLast, List.length_cons, Nat.add_sub_cancel]
  congr 1
  apply List.filter_congr
  intro i hi
  have hlt := List.mem_range.mp hi
  obtain ⟨x, hx⟩ : ∃ x, (first :: rest)[i]? = some x :=
    ⟨_, List.getElem?_eq_getElem (by rw [List.length_cons]; omega)⟩
  have hdrop : ((first :: rest).dropLast)[i]? = some x := by
    rw [List.getElem?_dropLast, if_pos (by rw [List.length_cons]; omega), hx]
  rw [Function.comp_apply, htable i x hx, hdrop, Option.map_some]
  simp

/-- No map is detected completely: the last entry is not counted. -/
theorem memory_detection_never_complete (first : SmapEntry) (rest : List SmapEntry)
    (memory : Bytes) :
    ¬ Complete (first :: rest) (detectMemory first rest memory)
      (getUsableMemoryRegions (detectMemory first rest memory).memory
        (detectMemory first rest memory).memoryRegionCount) := by
  intro h
  have hcount := h.count
  rw [detectMemory_count, u8, List.length_cons] at hcount
  omega

/-- A map of one usable entry. -/
theorem single_entry_not_found : ¬ ∀ (first : SmapEntry) (rest : List SmapEntry) (memory : Bytes),
    Complete (first :: rest) (detectMemory first rest memory)
      (getUsableMemoryRegions (detectMemory first rest memory).memory
        (detectMemory first rest memory).memoryRegionCount) := by
  intro h
  have hcount := (h (fun k => if k = 16 then 1 else 0) [] fun _ => 0).count
  exact absurd hcount (by decide)

end NickOS3.Boot
