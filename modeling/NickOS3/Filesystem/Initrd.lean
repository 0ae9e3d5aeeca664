import NickOS3.Lib.Blocks
import NickOS3.Lib.KeyValue

/-!
# The ram disk

`initialise_rd_fs`, `initrd_read` and `initrd_readdir` on an image that lies in memory: a
count of files and, for each file, a header followed by its bytes. The root directory gets
`initrd_finddir` in the place of `initrd_readdir`, and a file is looked up at the position
of its inode, one behind its own.
-/

namespace NickOS3.Filesystem

open Lib

/-! ## Nodes -/

inductive NodeType
  | file
  | directory
  | symLink
  | device
  | socket
  | pipe
  deriving DecidableEq

/-- The functions that a node calls back. -/
inductive Callback
  | initrdRead
  | initrdReaddir
  | initrdFinddir
  deriving DecidableEq

structure Direntry where
  name : List UInt8
  inode : Nat

/-- `fs_node`; a callback that is not set is `none`, and a directory has its entries as a
list. -/
structure FsNode where
  name : List UInt8
  type : NodeType
  size : Nat
  inode : Nat
  read : Option Callback
  readdir : Option Callback
  dirContents : List Direntry

/-- The file system of the ram disk. The nodes that were made for the files are history:
they are reached through their inodes only. -/
structure Initrd where
  root : FsNode
  fileLookup : KvState
  rdFileCount : Nat
  nodes : List FsNode

/-! ## `initialise_rd_fs` -/

/-- `MAGIC` -/
def MAGIC : Nat := 0x12345678

/-- `sizeof(rd_file_header)`, with the padding behind `filetype`. -/
def headerSize : Nat := 140

/-- The string at an address, within a field of so many bytes. -/
def cString (m : Bytes) : Nat → Nat → List UInt8
  | 0, _ => []
  | n + 1, a => if m a = 0 then [] else m a :: cString m n (a + 1)

/-- `rd_file->name` -/
def rdName (m : Bytes) (addr : Nat) : List UInt8 := cString m 128 (addr + 4)

/-- `rd_file->length` -/
def rdLength (m : Bytes) (addr : Nat) : Nat := m.word (addr + 132)

/-- What a file of the ram disk is given: a node, its place in the lookup and an entry in the
root directory. -/
def Initrd.addFile (s : Initrd) (m : Bytes) (addr : Nat) (block : Block) : Option Initrd := do
  let inode := s.rdFileCount + 1
  let f : FsNode := {
    name := rdName m addr
    type := .file
    size := rdLength m addr
    inode := inode
    read := some .initrdRead
    readdir := none
    dirContents := [] }
  let (_, fileLookup) ← Kv.add f.inode addr block s.fileLookup
  return {
    root := { s.root with dirContents := s.root.dirContents ++ [⟨f.name, f.inode⟩] }
    fileLookup := fileLookup
    rdFileCount := inode
    nodes := s.nodes ++ [f] }

/-- The loop over the files that are left; it breaks at a header without the magic word. The
block of the lookup's next element comes from `malloc`. -/
def populate (m : Bytes) (blocks : Nat → Block) : Nat → Nat → Initrd → Option Initrd
  | 0, _, s => some s
  | n + 1, addr, s =>
      if m.word addr ≠ MAGIC then some s
      else do
        let s ← s.addFile m addr (blocks s.rdFileCount)
        populate m blocks n (u32 (addr + (rdLength m addr + headerSize))) s

/-- `"rd"` -/
def rootName : List UInt8 := [0x72, 0x64]

/-- `initrd_root` before files are added: `readdir` is set twice. -/
def initrdRoot : FsNode :=
  let root : FsNode := {
    name := rootName
    type := .directory
    size := 0
    inode := 0
    read := none
    readdir := some .initrdReaddir
    dirContents := [] }
  { root with readdir := some .initrdFinddir }

/-- `file_lookup` is declared and used, but made nowhere; it is taken to be a new store. -/
def initialiseRdFs (m : Bytes) (location : Nat) (blocks : Nat → Block) (store : KvState) :
    Option Initrd := do
  let (_, fileLookup) ← Kv.kvInit store
  populate m blocks (m.word location) (u32 (location + 4)) ⟨initrdRoot, fileLookup, 0, []⟩

/-! ## Callbacks -/

/-- `initrd_readdir` -/
def initrdReaddir (node : FsNode) (idx : Nat) : Option Direntry :=
  if node.type ≠ .directory then none
  else if idx ≥ node.dirContents.length then none
  else node.dirContents[idx]?

/-- What `node->readdir(node, idx)` may return. `initrd_finddir` has no return statement. -/
def FsNode.ReaddirReturns (node : FsNode) (idx : Nat) (r : Option Direntry) : Prop :=
  node.readdir = some .initrdReaddir → r = initrdReaddir node idx

/-- `initrd_read`: what it returns and the memory it leaves, or `none` when the lookup panics.
The header has no field `addr`; `file.addr` is taken for the place where the bytes of the file
begin. -/
def initrdRead (fileLookup : KvState) (node : FsNode) (offset size buffer : Nat) (t : Trace) :
    Option (Nat × Trace) := do
  let (file, _) ← Kv.kvGet node.inode fileLookup
  if file = 0 then return (0, t)
  else if offset > rdLength t.bytes file then return (0, t)
  else
    let size :=
      if u32 (offset + size) > rdLength t.bytes file then rdLength t.bytes file - offset else size
    return (size, t.memcpy buffer (file + headerSize + offset) size)

/-! ## Images -/

/-- A file of the ram disk. -/
structure RdFile where
  name : List UInt8
  contents : List UInt8

/-- The header of a file, and its bytes behind it. -/
structure RdFile.LiesAt (f : RdFile) (m : Bytes) (a : Nat) : Prop where
  magic : m.word a = MAGIC
  short : f.name.length ≤ 127
  noNull : 0 ∉ f.name
  name : ∀ i, (hi : i < f.name.length) → m (a + 4 + i) = f.name[i]
  terminator : m (a + 4 + f.name.length) = 0
  length : m.word (a + 132) = f.contents.length
  contents : ∀ i, (hi : i < f.contents.length) → m (a + headerSize + i) = f.contents[i]

/-- Files one behind the other, within 32 bits. -/
def FilesAt (m : Bytes) : Nat → List RdFile → Prop
  | a, [] => a ≤ 4294967296
  | a, f :: rest => f.LiesAt m a ∧ FilesAt m (a + (f.contents.length + headerSize)) rest

/-- An image: the count of files, and the files. -/
def LaidOut (m : Bytes) (location : Nat) (files : List RdFile) : Prop :=
  m.word location = files.length ∧ FilesAt m (location + 4) files

/-- The root directory lists the files in order. -/
def Initrd.Lists (s : Initrd) (files : List RdFile) : Prop :=
  ∀ k r, s.root.ReaddirReturns k r → r.map Direntry.name = (files[k]?).map RdFile.name

/-- The bytes of a file can be read through its node into a buffer. -/
def Initrd.ReadsBack (s : Initrd) (m : Bytes) (files : List RdFile) : Prop :=
  ∀ (k : Nat) (f : RdFile) (node : FsNode), files[k]? = some f → s.nodes[k]? = some node →
    ∃ (buffer : Nat) (t : Trace),
      initrdRead s.fileLookup node 0 f.contents.length buffer ⟨m, [], []⟩ =
        some (f.contents.length, t) ∧
      ∀ i < f.contents.length, f.contents[i]? = some (t.bytes (buffer + i))

/-- What is on the ram disk is what was put there. -/
structure Initrd.RoundTrip (s : Initrd) (m : Bytes) (files : List RdFile) : Prop where
  lists : s.Lists files
  inodes : (s.nodes.map FsNode.inode).Nodup
  reads : s.ReadsBack m files

end NickOS3.Filesystem
