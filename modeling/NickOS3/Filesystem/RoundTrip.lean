import NickOS3.Filesystem.Initrd

/-!
# The ram disk does not round trip

`initialise_rd_fs` finds the files of every image, in order and with distinct inodes. The
root directory does not list them, since its `readdir` is `initrd_finddir`; and the last
file cannot be read, since its inode is the number of files, which `kv_get` takes for a
position out of bounds.
-/

namespace NickOS3.Filesystem

open Lib

section Strings

variable {m : Bytes} {a n : Nat} {name : List UInt8}

theorem cString_eq (hname : ∀ i, (hi : i < name.length) → m (a + i) = name[i])
    (hnoNull : 0 ∉ name) (hterminator : m (a + name.length) = 0) (hn : name.length < n) :
    cString m n a = name := by
  induction name generalizing a n with
  | nil =>
      cases n with
      | zero => omega
      | succ n => exact if_pos hterminator
  | cons b name ih =>
      rw [List.length_cons] at hn hterminator
      rw [List.mem_cons, not_or] at hnoNull
      cases n with
      | zero => omega
      | succ n =>
          have hfirst : m a = b := hname 0 (by simp)
          have hrest : cString m n (a + 1) = name := by
            apply ih
            · intro i hi
              rw [Nat.add_assoc, Nat.add_comm 1 i]
              exact hname (i + 1) (by simpa using hi)
            · exact hnoNull.2
            · rw [Nat.add_assoc, Nat.add_comm 1]
              exact hterminator
            · omega
          rw [cString, hfirst, if_neg (Ne.symm hnoNull.1), hrest]

end Strings

section Lookup

variable {s : KvState} {key value : Nat} {b : Block}

/-- Every `add` makes the store larger by one. -/
theorem add_size : ∃ s', Kv.add key value b s = some ((), s') ∧
    s'.keys.list.size = u32 (s.keys.list.size + 1) := by
  rw [add_run]
  by_cases hempty : s.keys.list.size = 0
  · rw [append_run_empty hempty, hempty]
    exact ⟨_, rfl, rfl⟩
  · simp [Lib.append, isEmpty, hempty, ListState.modifyElem, ListState.touch]

/-- `kv_get` panics at a position that is out of bounds. -/
theorem kvGet_panics (h : s.keys.list.size ≤ key) : Kv.kvGet key s = none := by
  simp [Kv.kvGet, h]

end Lookup

/-- The nodes of files that follow `count` others. -/
def nodesFrom : Nat → List RdFile → List FsNode
  | _, [] => []
  | count, f :: rest =>
      { name := f.name
        type := .file
        size := f.contents.length
        inode := count + 1
        read := some .initrdRead
        readdir := none
        dirContents := [] } :: nodesFrom (count + 1) rest

section Nodes

variable {files : List RdFile} {count k : Nat}

theorem nodesFrom_names : (nodesFrom count files).map FsNode.name = files.map RdFile.name := by
  induction files generalizing count with
  | nil => rfl
  | cons f rest ih => rw [nodesFrom, List.map_cons, List.map_cons, ih]

theorem nodesFrom_inodes :
    (nodesFrom count files).map FsNode.inode = List.range' (count + 1) files.length := by
  induction files generalizing count with
  | nil => rfl
  | cons f rest ih => rw [nodesFrom, List.map_cons, ih, List.length_cons, List.range'_succ]

theorem nodesFrom_getElem? (hk : k < files.length) :
    ∃ node, (nodesFrom count files)[k]? = some node ∧ node.inode = count + 1 + k := by
  have hget : ((nodesFrom count files).map FsNode.inode)[k]? = some (count + 1 + k) := by
    rw [nodesFrom_inodes, List.getElem?_range' hk, Nat.one_mul]
  rw [List.getElem?_map] at hget
  exact Option.map_eq_some_iff.mp hget

end Nodes

section Populate

variable {m : Bytes} {a : Nat} {f : RdFile} {files : List RdFile} {s : Initrd}

theorem FilesAt.length_le (h : FilesAt m a files) : a + 140 * files.length ≤ 4294967296 := by
  induction files generalizing a with
  | nil => exact h
  | cons f rest ih =>
      have hrest := ih h.2
      rw [List.length_cons]
      unfold headerSize at hrest
      omega

theorem RdFile.LiesAt.rdName (h : f.LiesAt m a) : rdName m a = f.name :=
  cString_eq h.name h.noNull h.terminator (Nat.lt_succ_of_le h.short)

/-- The loop makes a node for each file and counts it in the lookup. -/
theorem FilesAt.populate {addr : Nat} (h : FilesAt m a files) (haddr : files ≠ [] → addr = a)
    (blocks : Nat → Block) (hsize : s.fileLookup.keys.list.size + files.length < 4294967296) :
    ∃ s', Filesystem.populate m blocks files.length addr s = some s' ∧
      s'.nodes = s.nodes ++ nodesFrom s.rdFileCount files ∧
      s'.root.readdir = s.root.readdir ∧
      s'.fileLookup.keys.list.size = s.fileLookup.keys.list.size + files.length := by
  induction files generalizing a addr s with
  | nil => exact ⟨s, rfl, (List.append_nil _).symm, rfl, rfl⟩
  | cons f rest ih =>
      obtain ⟨hfile, hrest⟩ := h
      obtain rfl := haddr (List.cons_ne_nil _ _)
      rw [List.length_cons] at hsize
      obtain ⟨store, hadd, hstore⟩ :
          ∃ store, Kv.add (s.rdFileCount + 1) addr (blocks s.rdFileCount) s.fileLookup
            = some ((), store) ∧ _ := add_size
      rw [u32_of_lt (by omega)] at hstore
      let next : Initrd := {
        root := { s.root with
          dirContents := s.root.dirContents ++ [⟨f.name, s.rdFileCount + 1⟩] }
        fileLookup := store
        rdFileCount := s.rdFileCount + 1
        nodes := s.nodes ++ nodesFrom s.rdFileCount [f] }
      have hnext : s.addFile m addr (blocks s.rdFileCount) = some next := by
        simp only [Initrd.addFile, hfile.rdName, rdLength, hfile.length, hadd]
        rfl
      have hstep : rest ≠ [] →
          u32 (addr + (rdLength m addr + headerSize)) =
            addr + (f.contents.length + headerSize) := by
        intro hne
        have hfits := hrest.length_le
        have hpos := List.length_pos_of_ne_nil hne
        rw [rdLength, hfile.length]
        exact u32_of_lt (by omega)
      obtain ⟨s', hrun, hnodes, hreaddir, hlast⟩ :=
        ih (s := next) hrest hstep (by
          change store.keys.list.size + rest.length < 4294967296
          omega)
      refine ⟨s', ?_, ?_, hreaddir, ?_⟩
      · rw [List.length_cons, Filesystem.populate, if_neg (not_not_intro hfile.magic), hnext]
        exact hrun
      · rw [hnodes]
        simp [next, nodesFrom]
      · rw [hlast, List.length_cons]
        change store.keys.list.size + rest.length = _
        omega

end Populate

section Images

variable {m : Bytes} {location : Nat} {files : List RdFile}

/-- What `initialise_rd_fs` makes of an image. -/
theorem LaidOut.initialiseRdFs (h : LaidOut m location files) (blocks : Nat → Block)
    (store : KvState) :
    ∃ s, Filesystem.initialiseRdFs m location blocks store = some s ∧
      s.nodes = nodesFrom 0 files ∧ s.root.readdir = some .initrdFinddir ∧
      s.fileLookup.keys.list.size = files.length := by
  obtain ⟨hcount, hfiles⟩ := h
  have hfits := hfiles.length_le
  have haddr : files ≠ [] → u32 (location + 4) = location + 4 := by
    intro hne
    have hpos := List.length_pos_of_ne_nil hne
    exact u32_of_lt (by omega)
  let empty : KvState := ⟨{ store.keys with list := ⟨0, 0, 0⟩ }, store.values⟩
  obtain ⟨s, hrun, hnodes, hreaddir, hsize⟩ :=
    hfiles.populate (s := ⟨initrdRoot, empty, 0, []⟩) haddr blocks (by
      change 0 + files.length < 4294967296
      omega)
  refine ⟨s, ?_, hnodes, hreaddir, hsize.trans (Nat.zero_add _)⟩
  rw [← hrun, ← hcount]
  rfl

/-- A directory whose callback is `initrd_finddir` does not end its list. -/
theorem Initrd.not_lists {s : Initrd} (h : s.root.readdir = some .initrdFinddir) :
    ¬ s.Lists files := by
  intro hlists
  have hnone := hlists files.length (some ⟨[], 0⟩) (by
    intro hreaddir
    rw [h] at hreaddir
    cases hreaddir)
  rw [List.getElem?_eq_none (Nat.le_refl _)] at hnone
  cases hnone

/-- The last file is looked up out of bounds. -/
theorem Initrd.not_readsBack {s : Initrd} (hne : files ≠ []) (hnodes : s.nodes = nodesFrom 0 files)
    (hsize : s.fileLookup.keys.list.size = files.length) : ¬ s.ReadsBack m files := by
  intro hreads
  have hpos := List.length_pos_of_ne_nil hne
  obtain ⟨node, hnode, hinode⟩ :
      ∃ node, (nodesFrom 0 files)[files.length - 1]? = some node ∧ _ :=
    nodesFrom_getElem? (show files.length - 1 < files.length by omega)
  have hlast : files[files.length - 1]? = some (files.getLast hne) := by
    rw [← List.getLast?_eq_getElem?, List.getLast?_eq_getLast_of_ne_nil hne]
  obtain ⟨buffer, t, hread, _⟩ := hreads _ _ node hlast (hnodes ▸ hnode)
  rw [initrdRead, kvGet_panics (by omega)] at hread
  cases hread

/-- No image is read back. Its root directory cannot be listed, and where there are files, the
last of them cannot be read. -/
theorem ramdisk_never_round_trips (h : LaidOut m location files) (blocks : Nat → Block)
    (store : KvState) :
    ∃ s, Filesystem.initialiseRdFs m location blocks store = some s ∧
      ¬ s.RoundTrip m files ∧ (files ≠ [] → ¬ s.ReadsBack m files) := by
  obtain ⟨s, hrun, hnodes, hreaddir, hsize⟩ := h.initialiseRdFs blocks store
  exact ⟨s, hrun, fun htrip => Initrd.not_lists hreaddir htrip.lists,
    fun hne => Initrd.not_readsBack hne hnodes hsize⟩

end Images

/-- An image with one file, named `a`, of one byte. -/
def smallImage : Bytes := fun a =>
  if a = 0x100000 then 1
  else if a = 0x100004 then 0x78
  else if a = 0x100005 then 0x56
  else if a = 0x100006 then 0x34
  else if a = 0x100007 then 0x12
  else if a = 0x100008 then 0x61
  else if a = 0x100088 then 1
  else if a = 0x100090 then 7
  else 0

def smallFile : RdFile := ⟨[0x61], [7]⟩

theorem smallImage_laidOut : LaidOut smallImage 0x100000 [smallFile] := by
  refine ⟨by decide, ⟨by decide, by decide, by decide, ?_, by decide, by decide, ?_⟩, ?_⟩
  · intro i hi
    cases i with
    | zero => exact show smallImage 0x100008 = 0x61 by decide
    | succ i => exact absurd hi (by simp [smallFile])
  · intro i hi
    cases i with
    | zero => exact show smallImage 0x100090 = 7 by decide
    | succ i => exact absurd hi (by simp [smallFile])
  · exact show 0x100004 + (1 + headerSize) ≤ 4294967296 by decide

/-- Blocks that `malloc` returns. -/
def someBlocks (n : Nat) : Block := ⟨0x400000 + 16 * n, ⟨0, 0, 0⟩⟩

def someStore : KvState := ⟨⟨fun _ => ⟨0, 0, 0⟩, ⟨0, 0, 0⟩, [], []⟩, fun _ => 0⟩

theorem small_image_not_read_back :
    ∃ s, initialiseRdFs smallImage 0x100000 someBlocks someStore = some s ∧
      ¬ s.RoundTrip smallImage [smallFile] ∧ ¬ s.ReadsBack smallImage [smallFile] := by
  obtain ⟨s, hrun, htrip, hreads⟩ :=
    ramdisk_never_round_trips smallImage_laidOut someBlocks someStore
  exact ⟨s, hrun, htrip, hreads (by simp)⟩

theorem ramdisk_does_not_round_trip :
    ¬ ∀ (m : Bytes) (location : Nat) (files : List RdFile) (blocks : Nat → Block)
      (store : KvState), LaidOut m location files →
        ∃ s, initialiseRdFs m location blocks store = some s ∧ s.RoundTrip m files := by
  intro h
  obtain ⟨s, hrun, htrip⟩ := h _ _ _ someBlocks someStore smallImage_laidOut
  obtain ⟨s', hrun', _, hreaddir, _⟩ := smallImage_laidOut.initialiseRdFs someBlocks someStore
  obtain rfl := Option.some.inj (hrun.symm.trans hrun')
  exact Initrd.not_lists hreaddir htrip.lists

end NickOS3.Filesystem
