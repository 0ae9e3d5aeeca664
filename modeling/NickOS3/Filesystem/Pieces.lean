import Mathlib.Algebra.Order.Ring.Nat
import NickOS3.Filesystem.Reading

/-!
# Reading in pieces

What the ram disk does give back: through the node of a file, the file that follows it. `memcpy`
writes four times as much as it is asked to, but where a file is read piece by piece, every piece
overwrites what the one before it has written too much.
-/

namespace NickOS3.Filesystem

open Foundation Lib

/-! ## The code -/

/-- `read_fs`; only `initrd_read` is ever set as a read callback. -/
def readFs (fileLookup : KvState) (node : FsNode) (offset size buffer : Nat) (t : Trace) :
    Option (Nat × Trace) :=
  match node.read with
  | some .initrdRead => initrdRead fileLookup node offset size buffer t
  | some _ => none
  | none => some (0, t)

/-- Reads one after the other, each from where the one before it has ended. -/
def readPieces (fileLookup : KvState) (node : FsNode) :
    List Nat → Nat → Nat → Trace → Option (Nat × Trace)
  | [], _, _, t => some (0, t)
  | size :: sizes, offset, buffer, t => do
      let (n, t) ← readFs fileLookup node offset size buffer t
      let (rest, t) ← readPieces fileLookup node sizes (offset + n) (buffer + n) t
      return (n + rest, t)

/-! ## Pieces -/

section Pieces

variable {dest source : Nat} {m : Bytes}

/-- Outside of the words that it writes `memcpy` changes nothing. -/
theorem memcpy_beyond {n x : Nat} (hn : dest + 4 * n ≤ 4294967296)
    (hx : x < dest ∨ dest + 4 * n ≤ x) : Lib.memcpy dest source n m x = m x := by
  refine memcpy_outside fun k hk => ?_
  rw [u32_of_lt (by omega)]
  omega

/-- The bytes that were asked for are copied when the words written do not reach them. -/
theorem memcpy_apart {n k : Nat} (hk : k < n) (hn : dest + 4 * n ≤ 4294967296)
    (hsource : source + n ≤ 4294967296)
    (happart : dest + 4 * n ≤ source ∨ source + n ≤ dest) :
    Lib.memcpy dest source n m (dest + k) = m (source + k) := by
  have hcopied : Lib.memcpy dest source n m (u32 (dest + k)) = m (u32 (source + k)) :=
    memcpy_of_unwritten hk (by omega) fun j hj => by
      rw [u32_of_lt (by omega), u32_of_lt (by omega)]
      omega
  rwa [u32_of_lt (by omega), u32_of_lt (by omega)] at hcopied

variable {fileLookup fileLookup' : KvState} {node : FsNode} {file length offset buffer : Nat}
  {t : Trace}

/-- A piece of a file. -/
theorem readFs_piece (hread : node.read = some .initrdRead)
    (hlookup : Kv.kvGet node.inode fileLookup = some (file, fileLookup')) (hfile : file ≠ 0)
    (hlength : rdLength t.bytes file = length) (hoffset : offset ≤ length) {size : Nat}
    (hsize : length + size < 4294967296) (buffer : Nat) :
    readFs fileLookup node offset size buffer t =
      some (min size (length - offset),
        t.memcpy buffer (file + headerSize + offset) (min size (length - offset))) := by
  have hclamp : (if u32 (offset + size) > length then length - offset else size) =
      min size (length - offset) := by
    rw [u32_of_lt (by omega)]
    split <;> omega
  rw [readFs, hread]
  dsimp only
  rw [initrdRead, hlookup]
  change (if file = 0 then _ else _) = _
  rw [if_neg hfile, hlength, if_neg (by omega)]
  dsimp only
  rw [hclamp]
  rfl

theorem rdLength_congr {m' : Bytes} (h : ∀ x, file ≤ x → x < file + headerSize → m' x = m x) :
    rdLength m' file = rdLength m file := by
  unfold headerSize at h
  unfold rdLength Bytes.word
  rw [h (file + 132) (by omega) (by omega), h (file + 132 + 1) (by omega) (by omega),
    h (file + 132 + 2) (by omega) (by omega), h (file + 132 + 3) (by omega) (by omega)]

/-- The file is apart from all that its pieces from an offset on can write, and neither runs over
the last address. -/
structure FileApart (file length offset buffer : Nat) : Prop where
  fits : file + headerSize + length ≤ 4294967296
  room : buffer + 4 * (length - offset) ≤ 4294967296
  apart : buffer + 4 * (length - offset) ≤ file ∨ file + headerSize + length ≤ buffer

theorem readPieces_run (hread : node.read = some .initrdRead)
    (hlookup : Kv.kvGet node.inode fileLookup = some (file, fileLookup')) (hfile : file ≠ 0)
    (hlength : rdLength m file = length) {sizes : List Nat}
    (hsizes : ∀ size ∈ sizes, length + size < 4294967296) (hoffset : offset ≤ length)
    (hsame : ∀ x, file ≤ x → x < file + headerSize + length → t.bytes x = m x)
    (hapart : FileApart file length offset buffer) :
    ∃ t', readPieces fileLookup node sizes offset buffer t =
        some (min sizes.sum (length - offset), t') ∧
      (∀ i < min sizes.sum (length - offset),
        t'.bytes (buffer + i) = m (file + headerSize + offset + i)) ∧
      ∀ x, x < buffer ∨ buffer + 4 * (length - offset) ≤ x → t'.bytes x = t.bytes x := by
  induction sizes generalizing offset buffer t with
  | nil =>
      rw [List.sum_nil, Nat.zero_min]
      exact ⟨t, rfl, fun i hi => absurd hi (Nat.not_lt_zero i), fun _ _ => rfl⟩
  | cons size sizes ih =>
      obtain ⟨hfits, hroom, happart⟩ := hapart
      have hsize := hsizes size List.mem_cons_self
      have hlength' : rdLength t.bytes file = length := by
        rw [← hlength]
        exact rdLength_congr fun x hlow hhigh => hsame x hlow (by omega)
      have hpiece := readFs_piece hread hlookup hfile hlength' hoffset hsize buffer
      obtain ⟨n, hn⟩ : ∃ n, n = min size (length - offset) := ⟨_, rfl⟩
      rw [← hn] at hpiece
      obtain ⟨u, hu⟩ : ∃ u, u = t.memcpy buffer (file + headerSize + offset) n := ⟨_, rfl⟩
      rw [← hu] at hpiece
      have houtside : ∀ x, x < buffer ∨ buffer + 4 * n ≤ x → u.bytes x = t.bytes x := by
        intro x hx
        rw [hu, Trace.memcpy_bytes]
        refine memcpy_beyond ?_ hx
        omega
      have hcopied : ∀ i < n, u.bytes (buffer + i) = m (file + headerSize + offset + i) := by
        intro i hi
        rw [hu, Trace.memcpy_bytes, memcpy_apart hi (by omega) (by omega) (by omega)]
        exact hsame _ (by omega) (by omega)
      obtain ⟨t', hrest, hbytes, hkept⟩ := ih (fun s hs => hsizes s (List.mem_cons_of_mem _ hs))
        (show offset + n ≤ length by omega) (fun x hlow hhigh => by
          rw [houtside x (by omega)]
          exact hsame x hlow hhigh)
        (show FileApart file length (offset + n) (buffer + n) from ⟨hfits, by omega, by omega⟩)
      have htotal : n + min sizes.sum (length - (offset + n)) =
          min (size :: sizes).sum (length - offset) := by
        rw [List.sum_cons]
        omega
      refine ⟨t', ?_, fun i hi => ?_, fun x hx => ?_⟩
      · rw [readPieces, hpiece, ← htotal]
        change (readPieces fileLookup node sizes (offset + n) (buffer + n) u).bind _ = _
        rw [hrest]
        rfl
      · by_cases hlt : i < n
        · rw [hkept _ (by omega)]
          exact hcopied i hlt
        · obtain ⟨k, rfl⟩ := Nat.exists_eq_add_of_le (Nat.not_lt.mp hlt)
          have hbyte := hbytes k (by omega)
          rw [← Nat.add_assoc] at hbyte
          rw [← Nat.add_assoc, ← Nat.add_assoc]
          exact hbyte
      · rw [hkept x (by omega), houtside x (by omega)]

end Pieces

/-! ## The lookup -/

/-- The inodes of files that follow `count` others, and where the files lie. -/
def entriesFrom : Nat → Nat → List RdFile → List (Nat × Nat)
  | _, _, [] => []
  | count, a, f :: rest =>
      (count + 1, a) :: entriesFrom (count + 1) (a + (f.contents.length + headerSize)) rest

/-- The end of files one behind the other. -/
def filesEnd : Nat → List RdFile → Nat
  | a, [] => a
  | a, f :: rest => filesEnd (a + (f.contents.length + headerSize)) rest

/-- What `malloc` returns for the elements of the lookup, from a file on: blocks apart. -/
structure BlocksFrom (blocks : Nat → Block) (s : ListState) (count n : Nat) : Prop where
  fresh : ∀ i < n, (blocks (count + i)).Fresh s
  distinct : ∀ i < n, ∀ j < i, (blocks (count + i)).address ≠ (blocks (count + j)).address

/-- The lookup holds the entries in their order. `append` leaves the forward link of a new element
unset, and no position leads through the link of the last one. -/
structure Entered (s : KvState) (nodes : List Nat) (es : List (Nat × Nat)) : Prop where
  next : ∃ stop, Follows (fun a => (s.keys.elems a).next) s.keys.list.head nodes stop
  values : nodes.map s.values = es.map Prod.snd
  size : s.keys.list.size = nodes.length
  tail : ∀ x, nodes.getLast? = some x → s.keys.list.tail = x
  nodup : nodes.Nodup
  live : ∀ x ∈ nodes, x ∈ s.keys.blocks
  blocks : s.keys.BlocksDistinct

section Entries

variable {m : Bytes} {a count k : Nat} {files : List RdFile} {f : RdFile}

theorem le_filesEnd (files : List RdFile) (a : Nat) : a ≤ filesEnd a files := by
  induction files generalizing a with
  | nil => exact Nat.le_refl a
  | cons f rest ih =>
      have hrest := ih (a + (f.contents.length + headerSize))
      rw [filesEnd]
      omega

theorem FilesAt.filesEnd_le (h : FilesAt m a files) : filesEnd a files ≤ 4294967296 := by
  induction files generalizing a with
  | nil => exact h
  | cons f rest ih => exact ih h.2

/-- Every file has an entry with the place where it lies. -/
theorem FilesAt.entry (h : FilesAt m a files) (hk : files[k]? = some f) (count : Nat) :
    ∃ addr, (entriesFrom count a files)[k]? = some (count + 1 + k, addr) ∧ f.LiesAt m addr ∧
      a ≤ addr ∧ addr + headerSize + f.contents.length ≤ filesEnd a files := by
  induction files generalizing a count k with
  | nil => cases hk
  | cons g rest ih =>
      obtain ⟨hfile, hrest⟩ := h
      cases k with
      | zero =>
          obtain rfl := Option.some.inj hk
          have hend := le_filesEnd rest (a + (g.contents.length + headerSize))
          refine ⟨a, rfl, hfile, Nat.le_refl a, ?_⟩
          rw [filesEnd]
          omega
      | succ k =>
          obtain ⟨addr, hentry, hlies, hlow, hhigh⟩ := ih hrest hk (count + 1)
          refine ⟨addr, ?_, hlies, by omega, hhigh⟩
          rw [entriesFrom, List.getElem?_cons_succ, hentry]
          congr 2
          omega

end Entries

section Populate

variable {m : Bytes} {a addr count n p key value : Nat} {files : List RdFile} {s : Initrd}
  {store store' : KvState} {nodes : List Nat} {es : List (Nat × Nat)} {blocks : Nat → Block}
  {b : Block}

/-- The element of a new entry is a block more. -/
theorem add_blocks (h : Kv.add key value b store = some ((), store')) :
    store'.keys.blocks = b.address :: store.keys.blocks := by
  rw [add_run] at h
  obtain ⟨r, hr, hstore⟩ := Option.map_eq_some_iff.mp h
  rw [← (Prod.mk.inj hstore).2]
  by_cases hempty : store.keys.list.size = 0
  · rw [append_run_empty hempty] at hr
    rw [← Option.some.inj hr]
  · simp [Lib.append, isEmpty, hempty, ListState.modifyElem, ListState.touch] at hr
    rw [← hr]

theorem BlocksFrom.tail (h : BlocksFrom blocks store.keys count (n + 1))
    (hadd : Kv.add key value (blocks count) store = some ((), store')) :
    BlocksFrom blocks store'.keys (count + 1) n := by
  have hshift : ∀ i, count + 1 + i = count + (i + 1) := by omega
  refine ⟨fun i hi => ?_, fun i hi j hj => ?_⟩
  · obtain ⟨hnull, hfits, hlive⟩ := h.fresh (i + 1) (by omega)
    rw [hshift]
    refine ⟨hnull, hfits, ?_⟩
    rw [add_blocks hadd, List.mem_cons, not_or]
    exact ⟨h.distinct (i + 1) (by omega) 0 (by omega), hlive⟩
  · rw [hshift, hshift]
    exact h.distinct (i + 1) (by omega) (j + 1) (by omega)

/-- An element more. -/
theorem Entered.add (h : Entered store nodes es) (hb : b.Fresh store.keys) :
    ∃ store', Kv.add key value b store = some ((), store') ∧
      Entered store' (nodes ++ [b.address]) (es ++ [(key, value)]) := by
  have hlength := hb.length_lt h.blocks h.nodup h.live
  have hnot : b.address ∉ nodes := fun hmem => hb.notLive (h.live _ hmem)
  have hvalues : (nodes ++ [b.address]).map (Function.update store.values b.address value) =
      (es ++ [(key, value)]).map Prod.snd := by
    rw [List.map_append, List.map_append, ← h.values, List.map_singleton, List.map_singleton,
      Function.update_self]
    congr 1
    exact List.map_congr_left fun a ha =>
      Function.update_of_ne (ne_of_mem_of_not_mem ha hnot) _ _
  have hnodup : (nodes ++ [b.address]).Nodup := by
    rw [List.nodup_append]
    refine ⟨h.nodup, List.nodup_singleton _, fun a ha c hc => ?_⟩
    rw [List.mem_singleton.mp hc]
    exact ne_of_mem_of_not_mem ha hnot
  have hlive : ∀ x ∈ nodes ++ [b.address], x ∈ b.address :: store.keys.blocks := by
    intro x hx
    rcases List.mem_append.mp hx with hx | hx
    · exact List.mem_cons_of_mem _ (h.live x hx)
    · exact List.mem_singleton.mp hx ▸ List.mem_cons_self
  have hlast : ∀ x, (nodes ++ [b.address]).getLast? = some x → b.address = x := by
    intro x hx
    rw [List.getLast?_append, List.getLast?_singleton] at hx
    exact Option.some.inj hx
  have hlen : (nodes ++ [b.address]).length = nodes.length + 1 := by
    rw [List.length_append, List.length_singleton]
  by_cases hne : nodes = []
  · subst hne
    refine ⟨_, by rw [add_run, append_run_empty h.size]; rfl, ?_, hvalues, ?_, hlast, hnodup,
      hlive, ?_⟩
    · exact ⟨0, rfl, by simp⟩
    · rw [hlen]
      rfl
    · exact hb.blocks h.blocks
  · have hlastNode := List.getLast?_eq_some_getLast hne
    have htail : store.keys.list.tail ∈ nodes := by
      rw [h.tail _ hlastNode]
      exact List.getLast_mem hne
    have hne' : store.keys.list.tail ≠ b.address := fun heq => hnot (heq ▸ htail)
    have hsize : store.keys.list.size ≠ 0 := by
      rw [h.size]
      exact fun hzero => hne (List.length_eq_zero_iff.mp hzero)
    obtain ⟨stop, hnext⟩ := h.next
    refine ⟨_, by rw [add_run, append_run hsize hne']; rfl, ?_, hvalues, ?_, hlast, hnodup,
      hlive, ?_⟩
    · refine ⟨b.content.next, follows_append_cons.mpr ⟨?_, ?_⟩⟩
      · apply hnext.retarget h.nodup
        · rw [if_neg hne]
        · intro x hx
          simp [h.tail x hx]
        · intro x hx hxlast
          have hxtail : x ≠ store.keys.list.tail := by
            rintro rfl
            exact hxlast (hlastNode.trans (congrArg some (h.tail _ hlastNode).symm))
          have hxb : x ≠ b.address := ne_of_mem_of_not_mem hx hnot
          simp [Function.update_of_ne hxtail, Function.update_of_ne hxb]
      · simp [Function.update_of_ne hne'.symm]
    · rw [hlen]
      show u32 (store.keys.list.size + 1) = _
      rw [h.size, u32_of_lt hlength]
    · exact hb.blocks h.blocks

/-- The lookup gives the value of the entry at a position. -/
theorem Entered.kvGet (h : Entered store nodes es) {e : Nat × Nat} (hget : es[key]? = some e) :
    ∃ store', Kv.kvGet key store = some (e.2, store') := by
  have hlen : nodes.length = es.length := by
    rw [← List.length_map store.values, h.values, List.length_map]
  have hlt : key < nodes.length := by
    rw [hlen]
    exact (List.getElem?_eq_some_iff.mp hget).1
  obtain ⟨stop, hnext⟩ := h.next
  obtain ⟨x, t, hx, hrun, -⟩ := elemAt_run (c := store.keys) hnext hlt rfl
  have hvalue : store.values x = e.2 := by
    have hboth := congrArg (·[key]?) h.values
    simp only [List.getElem?_map, hx, hget, Option.map_some, Option.some.injEq] at hboth
    exact hboth
  have hsize : ¬ store.keys.list.size ≤ key := by
    rw [h.size]
    omega
  exact ⟨{ store with keys := { store.keys with touched := t } },
    by simp [Kv.kvGet, hsize, hrun, hvalue]⟩

theorem RdFile.LiesAt.addFile {f : RdFile} (h : f.LiesAt m a)
    (hadd : Kv.add (s.rdFileCount + 1) a b s.fileLookup = some ((), store)) :
    ∃ s', s.addFile m a b = some s' ∧ s'.fileLookup = store ∧
      s'.rdFileCount = s.rdFileCount + 1 := by
  rw [Initrd.addFile, h.rdName, rdLength, h.length]
  dsimp only
  rw [hadd]
  exact ⟨_, rfl, rfl, rfl⟩

/-- The loop enters every file with its place. -/
theorem FilesAt.populate_enters (h : FilesAt m a files) (haddr : files ≠ [] → addr = a)
    (hentered : Entered s.fileLookup nodes es)
    (hblocks : BlocksFrom blocks s.fileLookup.keys s.rdFileCount files.length) :
    ∃ s' nodes', Filesystem.populate m blocks files.length addr s = some s' ∧
      Entered s'.fileLookup nodes' (es ++ entriesFrom s.rdFileCount a files) := by
  induction files generalizing a addr s nodes es with
  | nil => exact ⟨s, nodes, rfl, by rwa [entriesFrom, List.append_nil]⟩
  | cons f rest ih =>
      obtain ⟨hfile, hrest⟩ := h
      obtain rfl := haddr (List.cons_ne_nil _ _)
      obtain ⟨store, hadd, hstore⟩ :
          ∃ store, Kv.add (s.rdFileCount + 1) addr (blocks s.rdFileCount) s.fileLookup
            = some ((), store) ∧ _ :=
        hentered.add (hblocks.fresh 0 (Nat.succ_pos _))
      have hstep : rest ≠ [] →
          u32 (addr + (rdLength m addr + headerSize)) =
            addr + (f.contents.length + headerSize) := by
        intro hne
        have hfits := hrest.length_le
        have hpos := List.length_pos_of_ne_nil hne
        rw [rdLength, hfile.length]
        exact u32_of_lt (by omega)
      obtain ⟨next, hnext, rfl, hcount⟩ := hfile.addFile hadd
      obtain ⟨s', nodes', hrun, hlast⟩ := ih hrest hstep hstore (hcount ▸ hblocks.tail hadd)
      refine ⟨s', nodes', ?_, ?_⟩
      · rw [List.length_cons, Filesystem.populate, if_neg (not_not_intro hfile.magic), hnext]
        exact hrun
      · rw [List.append_assoc, hcount] at hlast
        exact hlast

end Populate

/-! ## The file that follows -/

/-- A buffer that stays apart from the ram disk, with all that is written behind it. -/
def BufferApart (location limit buffer length : Nat) : Prop :=
  buffer + 4 * length ≤ location ∨ limit ≤ buffer ∧ buffer + 4 * length ≤ 4294967296

/-- However it is cut into pieces, the file is read up to where they or the file end. -/
def ReadsInPieces (m : Bytes) (location limit : Nat) (fileLookup : KvState) (node : FsNode)
    (f : RdFile) : Prop :=
  ∀ (sizes : List Nat) (buffer : Nat) (reads writes : List Nat),
    (∀ size ∈ sizes, f.contents.length + size < 4294967296) →
    BufferApart location limit buffer f.contents.length →
      ∃ t, readPieces fileLookup node sizes 0 buffer ⟨m, reads, writes⟩ =
          some (min sizes.sum f.contents.length, t) ∧
        (∀ i < min sizes.sum f.contents.length, f.contents[i]? = some (t.bytes (buffer + i))) ∧
        ∀ x, x < buffer ∨ buffer + 4 * f.contents.length ≤ x → t.bytes x = m x

section Following

variable {m : Bytes} {location : Nat} {files : List RdFile} {blocks : Nat → Block}
  {store : KvState}

theorem nodesFrom_read {count : Nat} {node : FsNode} (h : node ∈ nodesFrom count files) :
    node.read = some .initrdRead := by
  induction files generalizing count with
  | nil => cases h
  | cons f rest ih =>
      rcases List.mem_cons.mp h with rfl | h
      · rfl
      · exact ih h

theorem nodesFrom_length (count : Nat) : (nodesFrom count files).length = files.length := by
  rw [← List.length_map FsNode.name, nodesFrom_names, List.length_map]

/-- The lookup holds the place of every file. -/
theorem LaidOut.lookup_entered (h : LaidOut m location files) (hstore : store.keys.BlocksDistinct)
    (hblocks : BlocksFrom blocks store.keys 0 files.length) :
    ∃ s nodes, Filesystem.initialiseRdFs m location blocks store = some s ∧
      s.nodes = nodesFrom 0 files ∧ s.fileLookup.keys.list.size = files.length ∧
      Entered s.fileLookup nodes (entriesFrom 0 (location + 4) files) := by
  obtain ⟨s, hrun, hnodes, -, hsize⟩ := h.initialiseRdFs blocks store
  obtain ⟨hcount, hfiles⟩ := h
  have hfits := hfiles.length_le
  have haddr : files ≠ [] → u32 (location + 4) = location + 4 := by
    intro hne
    have hpos := List.length_pos_of_ne_nil hne
    exact u32_of_lt (by omega)
  let empty : KvState := ⟨{ store.keys with list := ⟨0, 0, 0⟩ }, store.values⟩
  have hempty : Entered empty [] [] :=
    ⟨⟨0, rfl⟩, rfl, rfl, nofun, List.nodup_nil, nofun, hstore⟩
  have hfresh : BlocksFrom blocks empty.keys 0 files.length :=
    ⟨fun i hi => ⟨(hblocks.fresh i hi).notNull, (hblocks.fresh i hi).fits,
      (hblocks.fresh i hi).notLive⟩, hblocks.distinct⟩
  obtain ⟨s', nodes, hrun', hentered⟩ :=
    hfiles.populate_enters (s := ⟨initrdRoot, empty, 0, []⟩) haddr hempty hfresh
  have hsame : Filesystem.initialiseRdFs m location blocks store = some s' := by
    rw [← hrun', ← hcount]
    rfl
  obtain rfl := Option.some.inj (hrun.symm.trans hsame)
  exact ⟨s, nodes, hrun, hnodes, hsize, hentered⟩

/-- A node reads the file that follows its own, whole and in order however it is cut into pieces;
the last node has none that follows, and every read through it panics. -/
theorem following_file_read_in_pieces (h : LaidOut m location files)
    (hstore : store.keys.BlocksDistinct)
    (hblocks : BlocksFrom blocks store.keys 0 files.length) :
    ∃ s, Filesystem.initialiseRdFs m location blocks store = some s ∧
      ∀ (k : Nat) (node : FsNode), s.nodes[k]? = some node →
        match files[k + 1]? with
        | none => ∀ offset size buffer t, readFs s.fileLookup node offset size buffer t = none
        | some f =>
            ReadsInPieces m location (filesEnd (location + 4) files) s.fileLookup node f := by
  obtain ⟨s, nodes, hrun, hnodes, hsize, hentered⟩ := h.lookup_entered hstore hblocks
  refine ⟨s, hrun, fun k node hnode => ?_⟩
  rw [hnodes] at hnode
  have hread := nodesFrom_read (List.mem_of_getElem? hnode)
  have hk : k < files.length := by
    rw [← nodesFrom_length 0]
    exact (List.getElem?_eq_some_iff.mp hnode).1
  obtain ⟨node', hnode', hinode⟩ :
      ∃ node', (nodesFrom 0 files)[k]? = some node' ∧ _ := nodesFrom_getElem? hk
  obtain rfl := Option.some.inj (hnode.symm.trans hnode')
  split
  · rename_i hnone
    intro offset size buffer t
    rw [readFs, hread]
    dsimp only
    rw [initrdRead, kvGet_panics (by
      rw [hsize, hinode]
      have := List.getElem?_eq_none_iff.mp hnone
      omega)]
    rfl
  · rename_i f hsome
    obtain ⟨addr, hentry, hlies, hlow, hhigh⟩ := h.2.entry hsome 0
    obtain ⟨fileLookup', hlookup⟩ := hentered.kvGet hentry
    rw [show 0 + 1 + k = k + 1 by omega] at hinode
    rw [← hinode] at hlookup
    intro sizes buffer reads writes hsizes hbuffer
    have hend := h.2.filesEnd_le
    have hapart : FileApart addr f.contents.length 0 buffer := by
      unfold BufferApart at hbuffer
      exact ⟨by omega, by omega, by omega⟩
    obtain ⟨t, hpieces, hbytes, hkept⟩ :=
      readPieces_run (t := ⟨m, reads, writes⟩) hread hlookup (by omega) hlies.length hsizes
        (Nat.zero_le _) (fun _ _ _ => rfl) hapart
    refine ⟨t, hpieces, fun i hi => ?_, hkept⟩
    have hlt : i < f.contents.length := Nat.lt_of_lt_of_le hi (Nat.min_le_right _ _)
    rw [hbytes i hi, Nat.add_zero, hlies.contents i hlt, List.getElem?_eq_getElem hlt]

end Following

/-- An image with a file behind the first, named `b`, of three bytes. -/
def pairImage : Bytes := fun a =>
  if a = 0x100000 then 2
  else if a = 0x100091 then 0x78
  else if a = 0x100092 then 0x56
  else if a = 0x100093 then 0x34
  else if a = 0x100094 then 0x12
  else if a = 0x100095 then 0x62
  else if a = 0x100115 then 3
  else if a = 0x10011d then 4
  else if a = 0x10011e then 5
  else if a = 0x10011f then 6
  else smallImage a

theorem pairImage_laidOut : LaidOut pairImage 0x100000 [smallFile, ⟨[0x62], [4, 5, 6]⟩] := by
  refine ⟨by decide, ⟨by decide, by decide, by decide, by decide, by decide, by decide, by decide⟩,
    ⟨by decide, by decide, by decide, by decide, by decide, by decide, by decide⟩, ?_⟩
  exact show 0x100091 + (3 + headerSize) ≤ 4294967296 by decide

/-- The second file read through the node of the first, two bytes and then the last one. -/
theorem following_file_read_in_pieces_pair :
    ∃ s node t, initialiseRdFs pairImage 0x100000 someBlocks someStore = some s ∧
      s.nodes[0]? = some node ∧
      readPieces s.fileLookup node [2, 2] 0 0x200000 ⟨pairImage, [], []⟩ = some (3, t) ∧
      t.bytes 0x200002 = 6 := by
  have hstore : someStore.keys.BlocksDistinct := ⟨List.nodup_nil, by simp [someStore]⟩
  have hblocks : BlocksFrom someBlocks someStore.keys 0 2 := by
    refine ⟨fun i hi => ⟨?_, ?_, List.not_mem_nil⟩, fun i hi j hj => ?_⟩
    · simp [someBlocks]
    · simp only [someBlocks]
      omega
    · simp only [someBlocks]
      omega
  obtain ⟨s, hrun, hpieces⟩ :=
    following_file_read_in_pieces pairImage_laidOut hstore hblocks
  obtain ⟨s', hrun', hnodes, -⟩ := pairImage_laidOut.initialiseRdFs someBlocks someStore
  obtain rfl := Option.some.inj (hrun.symm.trans hrun')
  have hnode := congrArg (·[0]?) hnodes
  obtain ⟨t, hread, hbytes, -⟩ :=
    hpieces 0 _ hnode [2, 2] 0x200000 [] [] (by decide) (Or.inr (by decide))
  exact ⟨s, _, t, hrun, hnode, hread, (Option.some.inj (hbytes 2 (by decide))).symm⟩

end NickOS3.Filesystem
