import NickOS3.Filesystem.RoundTrip

/-!
# Reading a file

`initrd_read` clamps the size by a sum of 32 bits, and copies words where bytes are meant. It
stays within the file and the buffer only where it copies nothing.
-/

namespace NickOS3.Filesystem

open Lib

/-- How many bytes of a file are to be read. -/
def readSize (length offset size : Nat) : Nat :=
  if offset > length then 0 else min size (length - offset)

/-- A read of a file whose bytes lie at `data` returns its size, reads only bytes of the file,
and writes as many bytes to the buffer, equal to those of the file. -/
def ReadsWithin (m : Bytes) (data length offset size buffer : Nat)
    (result : Option (Nat × Trace)) : Prop :=
  ∃ t, result = some (readSize length offset size, t) ∧
    (∀ a ∈ t.reads, data ≤ a ∧ a < data + length) ∧
    (∀ a, a ∈ t.writes ↔ buffer ≤ a ∧ a < buffer + readSize length offset size) ∧
    ∀ i < readSize length offset size, t.bytes (buffer + i) = m (data + offset + i)

theorem word_lt (m : Bytes) (a : Nat) : m.word a < 4294967296 := by
  have h₀ := (m a).toNat_lt
  have h₁ := (m (a + 1)).toNat_lt
  have h₂ := (m (a + 2)).toNat_lt
  have h₃ := (m (a + 3)).toNat_lt
  unfold Bytes.word
  omega

section Reading

variable {m : Bytes} {data length offset size buffer : Nat}

/-- Nothing is read or written where the size is 0. -/
theorem readsWithin_nothing (h : readSize length offset size = 0) {n : Nat} (hn : n = 0) :
    ReadsWithin m data length offset size buffer
      (some (n, Trace.memcpy buffer (data + offset) n ⟨m, [], []⟩)) := by
  subst hn
  rw [ReadsWithin, h]
  refine ⟨⟨m, [], []⟩, rfl, fun a ha => absurd ha List.not_mem_nil, ?_, ?_⟩
  · intro a
    exact ⟨fun ha => absurd ha List.not_mem_nil, fun ha => by omega⟩
  · exact fun i hi => absurd hi (Nat.not_lt_zero i)

/-- A copy of some words writes more bytes than it returns. -/
theorem eq_zero_of_readsWithin {n : Nat} (hsize : n < 4294967296)
    (h : ReadsWithin m data length offset size buffer
      (some (n, Trace.memcpy buffer (data + offset) n ⟨m, [], []⟩))) :
    n = 0 ∧ readSize length offset size = 0 := by
  obtain ⟨t, hresult, _, hwrites, _⟩ := h
  obtain ⟨hn, ht⟩ := Prod.mk.inj (Option.some.inj hresult)
  have hzero : n = 0 := by
    by_contra hne
    have hwritten : u32 (buffer + n) ∈ t.writes := by
      rw [← ht]
      exact Trace.mem_writes_of_lt (by omega)
    have hwithin := (hwrites _).mp hwritten
    unfold u32 at hwithin
    omega
  exact ⟨hzero, hn ▸ hzero⟩

end Reading

/-- The size behind the clamp, a sum of 32 bits. -/
def clampedSize (length offset size : Nat) : Nat :=
  if u32 (offset + size) > length then length - offset else size

theorem clampedSize_lt {length offset size : Nat} (hlength : length < 4294967296)
    (hsize : size < 4294967296) : clampedSize length offset size < 4294967296 := by
  unfold clampedSize
  split <;> omega

/-- `initrd_read` of a file that the lookup finds. -/
theorem initrdRead_run {fileLookup fileLookup' : KvState} {node : FsNode} {file : Nat}
    (hlookup : Kv.kvGet node.inode fileLookup = some (file, fileLookup')) (hfile : file ≠ 0)
    (m : Bytes) (offset size buffer : Nat) :
    initrdRead fileLookup node offset size buffer ⟨m, [], []⟩ =
      if offset > rdLength m file then some (0, ⟨m, [], []⟩)
      else some (clampedSize (rdLength m file) offset size,
        Trace.memcpy buffer (file + headerSize + offset)
          (clampedSize (rdLength m file) offset size) ⟨m, [], []⟩) := by
  rw [initrdRead, hlookup]
  exact if_neg hfile

/-- `initrd_read` of a file that the lookup finds stays within the file and the buffer exactly
where the offset is behind the file, or nothing is to be read and the sum does not wrap. -/
theorem initrd_read_stays_within_iff {fileLookup fileLookup' : KvState} {node : FsNode}
    {file : Nat} (hlookup : Kv.kvGet node.inode fileLookup = some (file, fileLookup'))
    (hfile : file ≠ 0) (m : Bytes) {offset size : Nat} (hoffset : offset < 4294967296)
    (hsize : size < 4294967296) (buffer : Nat) :
    ReadsWithin m (file + headerSize) (rdLength m file) offset size buffer
        (initrdRead fileLookup node offset size buffer ⟨m, [], []⟩) ↔
      offset > rdLength m file ∨ size = 0 ∨
        offset = rdLength m file ∧ offset + size < 4294967296 := by
  have hlength : rdLength m file < 4294967296 := word_lt m _
  rw [initrdRead_run hlookup hfile]
  generalize rdLength m file = length at hlength ⊢
  by_cases hbehind : offset > length
  · have hzero : readSize length offset size = 0 := if_pos hbehind
    rw [if_pos hbehind]
    exact iff_of_true (readsWithin_nothing hzero rfl) (Or.inl hbehind)
  · have hread : readSize length offset size = min size (length - offset) := if_neg hbehind
    rw [if_neg hbehind]
    constructor
    · intro h
      obtain ⟨hn, hmin⟩ := eq_zero_of_readsWithin (clampedSize_lt hlength hsize) h
      rw [hread] at hmin
      right
      by_cases hclamp : u32 (offset + size) > length
      · by_cases hwrap : offset + size < 4294967296
        · omega
        · unfold u32 at hclamp
          omega
      · rw [clampedSize, if_neg hclamp] at hn
        exact Or.inl hn
    · intro h
      apply readsWithin_nothing
      · rw [hread]
        omega
      · by_cases hclamp : u32 (offset + size) > length
        · rw [clampedSize, if_pos hclamp]
          unfold u32 at hclamp
          omega
        · rw [clampedSize, if_neg hclamp]
          unfold u32 at hclamp
          omega

/-! ## One file -/

/-- The lookup of the small image: one element, with the key 1 and the address of the file. -/
def smallLookup : KvState where
  keys := {
    elems := fun _ => ⟨1, 0, 0⟩
    list := { size := 1, head := 0x400000, tail := 0x400000 }
    blocks := []
    touched := [] }
  values _ := 0x100004

/-- A node whose inode is the place of that element. -/
def smallNode : FsNode := ⟨[0x61], .file, 1, 0, some .initrdRead, none, []⟩

theorem smallLookup_finds :
    Kv.kvGet smallNode.inode smallLookup = some (0x100004, smallLookup) := rfl

theorem rdLength_smallImage : rdLength smallImage 0x100004 = 1 := by decide

/-- Nothing is left to be read behind the one byte of the file. -/
theorem initrd_read_stays_within_at_end :
    ReadsWithin smallImage (0x100004 + headerSize) (rdLength smallImage 0x100004) 1 5 0x200000
      (initrdRead smallLookup smallNode 1 5 0x200000 ⟨smallImage, [], []⟩) :=
  (initrd_read_stays_within_iff smallLookup_finds (by decide) smallImage (by decide) (by decide)
    0x200000).mpr (Or.inr (Or.inr ⟨rdLength_smallImage.symm, by decide⟩))

/-- One byte is to be read, and four are written. -/
theorem initrd_read_writes_more : ¬ ∀ (fileLookup fileLookup' : KvState) (node : FsNode)
    (file : Nat) (m : Bytes) (offset size buffer : Nat),
    Kv.kvGet node.inode fileLookup = some (file, fileLookup') → file ≠ 0 →
      offset < 4294967296 → size < 4294967296 →
      ReadsWithin m (file + headerSize) (rdLength m file) offset size buffer
        (initrdRead fileLookup node offset size buffer ⟨m, [], []⟩) := by
  intro h
  obtain ⟨t, hresult, _, hwrites, _⟩ := h smallLookup smallLookup smallNode 0x100004 smallImage
    0 1 0x200000 smallLookup_finds (by decide) (by decide) (by decide)
  have hrun : initrdRead smallLookup smallNode 0 1 0x200000 ⟨smallImage, [], []⟩ =
      some (1, Trace.memcpy 0x200000 (0x100004 + headerSize) 1 ⟨smallImage, [], []⟩) := by
    rw [initrdRead_run smallLookup_finds (by decide), rdLength_smallImage, if_neg (by decide)]
    rfl
  rw [hrun] at hresult
  have ht := (Prod.mk.inj (Option.some.inj hresult)).2
  have hwritten : 0x200001 ∈ t.writes := by
    rw [← ht]
    exact show u32 (0x200000 + 1) ∈ _ from Trace.mem_writes_of_lt (by decide)
  have hlt := ((hwrites _).mp hwritten).2
  rw [rdLength_smallImage] at hlt
  exact absurd hlt (by decide)

end NickOS3.Filesystem
