import NickOS3.Heap.Memory
import NickOS3.Foundation.Links

/-!
# The kernel heap allocator

`initialiseHeap`, `malloc`, `CombineFreeSegments` and `free`, with `palloc_heap`
as far as the heap sees it: the frames that `get_next_free_physical_page` still
has to give are an argument, each with the contents it held before.
-/

namespace NickOS3.Heap

open Foundation

/-- The allocator's global state: memory, `firstFreeSegment` and
`kernel_pool->next_free_page_index`. -/
structure HeapState where
  memory : Memory
  firstFreeSegment : Nat
  nextFreePageIndex : Nat

/-- The words a physical frame held when it was taken, by offset. -/
abbrev Frame := Nat → Nat

/-- Forget which headers were written before. -/
def HeapState.forgetWrites (s : HeapState) : HeapState :=
  { s with memory := { s.memory with written := [] } }

/-- The heap becomes one free segment of `length` bytes at `baseAddr`. -/
def initialiseHeap (baseAddr length : Nat) (s : HeapState) : HeapState :=
  let m := s.memory
  let m := m.write baseAddr .memoryLength (length - headerSize)
  let m := m.write baseAddr .nextFreeSegment 0
  let m := m.write baseAddr .nextSegment 0
  let m := m.write baseAddr .previousFreeSegment 0
  let m := m.write baseAddr .previousSegment 0
  let m := m.write baseAddr .free 1
  { s with memory := m, firstFreeSegment := baseAddr }

/-! ## `palloc_heap` -/

/-- One round of `palloc_heap`: `map_page` shows the frame at the pool's next
virtual page. The round also links the entry before it in `virtual_pages`, a write to the
pages of the pool and not of the heap, as long as `StaysInTable` holds of the call. -/
def HeapState.mapHeapPage (s : HeapState) (frame : Frame) : HeapState :=
  let vaddr := u32 (s.nextFreePageIndex * PGSIZE)
  { s with
    memory := { s.memory with
      words := fun a =>
        if vaddr ≤ a ∧ a < vaddr + PGSIZE then frame (a - vaddr) else s.memory.words a }
    nextFreePageIndex := s.nextFreePageIndex + 1 }

/-- The loop of `palloc_heap`; `false` when the frames ran out on the way. -/
def pallocHeapLoop : Nat → List Frame → HeapState → HeapState × Bool
  | 0, _, s => (s, true)
  | _ + 1, [], s => (s, false)
  | n + 1, frame :: frames, s => pallocHeapLoop n frames (s.mapHeapPage frame)

/-- The entries of `virtual_pages`. -/
def virtualPages : Nat := 512

/-- The rounds that get a frame write to entries of `virtual_pages`. Nothing compares the
index: behind the last entry the same write lands in the frames behind the pool. -/
def HeapState.StaysInTable (s : HeapState) (numPages : Nat) (frames : List Frame) : Prop :=
  0 < frames.length → s.nextFreePageIndex + min numPages frames.length ≤ virtualPages

instance (s : HeapState) (numPages : Nat) (frames : List Frame) :
    Decidable (s.StaysInTable numPages frames) :=
  inferInstanceAs (Decidable (_ → _))

/-- `palloc_heap(num_pages, kernel_pool, F_KERN)`, for calls that stay in the table. -/
def pallocHeap (numPages : Nat) (frames : List Frame) (s : HeapState) : HeapState × Nat :=
  let returnAddr := if numPages = 0 then 0 else u32 (s.nextFreePageIndex * PGSIZE)
  match pallocHeapLoop numPages frames s with
  | (s, true) => (s, returnAddr)
  | (s, false) => (s, NO_ADDR)

/-! ## `malloc` -/

/-- `malloc` makes the size 8 byte aligned. -/
def roundSize (size : Nat) : Nat :=
  let remainder := size % 8
  let size := size - remainder
  if remainder ≠ 0 then u32 (size + 8) else size

/-- The search loop: skip a segment while it is too small and not the last free one. -/
def skipSegment (m : Memory) (size : Nat) (currentSegment : Nat) : Option Nat :=
  if m.read currentSegment .memoryLength < size ∧ m.read currentSegment .nextFreeSegment ≠ 0
  then some (m.read currentSegment .nextFreeSegment) else none

/-- Where the search along `nextFreeSegment` ends; `none` when it does not end. -/
def firstFit (m : Memory) (size : Nat) (firstFreeSegment : Nat) : Option Nat :=
  chase (skipSegment m size) loopBound firstFreeSegment

/-- One round of the loop that looks for the last segment. -/
def followSegment (m : Memory) (tmp : Nat) : Option Nat :=
  if m.read tmp .nextSegment ≠ 0 then some (m.read tmp .nextSegment) else none

def lastSegment (m : Memory) (currentSegment : Nat) : Option Nat :=
  chase (followSegment m) loopBound currentSegment

/-- The part of `malloc` that takes the block from `currentSegment` and makes the
rest of it a new free segment. -/
def mallocSplit (size currentSegment : Nat) (s : HeapState) : HeapState × Nat :=
  let m := s.memory
  let newSegment := u32 (currentSegment + headerSize + size)
  let m := m.write newSegment .free 1
  let m := m.write newSegment .memoryLength
    (u32 (m.read currentSegment .memoryLength + 4294967296 - u32 (headerSize + size)))
  let m := m.write newSegment .nextFreeSegment (m.read currentSegment .nextFreeSegment)
  let m := m.write newSegment .nextSegment (m.read currentSegment .nextSegment)
  let m := m.write newSegment .previousFreeSegment (m.read currentSegment .previousFreeSegment)
  let m := m.write newSegment .previousSegment currentSegment
  let m := m.write currentSegment .nextFreeSegment newSegment
  let m := m.write currentSegment .nextSegment newSegment
  let m := m.write currentSegment .memoryLength size
  let m := m.write currentSegment .free 0
  let firstFreeSegment :=
    if currentSegment = s.firstFreeSegment then newSegment else s.firstFreeSegment
  let m := if m.read currentSegment .previousFreeSegment ≠ 0 then
      m.write (m.read currentSegment .previousFreeSegment) .nextFreeSegment
        (m.read currentSegment .nextFreeSegment) else m
  let m := if m.read currentSegment .nextFreeSegment ≠ 0 then
      m.write (m.read currentSegment .nextFreeSegment) .previousFreeSegment
        (m.read currentSegment .previousFreeSegment) else m
  let m := if m.read currentSegment .previousSegment ≠ 0 then
      m.write (m.read currentSegment .previousSegment) .nextFreeSegment
        (m.read currentSegment .nextFreeSegment) else m
  let m := if m.read currentSegment .nextSegment ≠ 0 then
      m.write (m.read currentSegment .nextSegment) .previousFreeSegment
        (m.read currentSegment .previousFreeSegment) else m
  ({ s with memory := m, firstFreeSegment := firstFreeSegment },
    u32 (currentSegment + headerSize))

/-- The pages `malloc` asks `palloc_heap` for. -/
def extensionPages (size : Nat) : Nat :=
  u32 (size + headerSize) / PGSIZE + if size % PGSIZE ≠ 0 then 1 else 0

/-- The part of `malloc` that links the new pages at `baseAddr` behind `currentSegment`. -/
def linkNewPages (size currentSegment baseAddr : Nat) (m : Memory) : Option Memory :=
  let remainder := size % PGSIZE
  let newSegment1 := baseAddr
  let m := m.write newSegment1 .free 0
  if remainder > headerSize then
    let newSegment2 := u32 (baseAddr + headerSize + size)
    let m := m.write newSegment2 .free 1
    let m := m.write newSegment2 .memoryLength (remainder - headerSize)
    let m := m.write newSegment2 .nextSegment 0
    let m := m.write newSegment2 .nextFreeSegment 0
    let m := m.write newSegment2 .previousSegment newSegment1
    let m := m.write newSegment2 .previousFreeSegment
      (if m.read currentSegment .free ≠ 0 then currentSegment
        else m.read currentSegment .previousFreeSegment)
    (lastSegment m currentSegment).map fun tmp =>
      let m := m.write newSegment1 .previousSegment tmp
      let m := m.write newSegment1 .previousFreeSegment currentSegment
      let m := m.write newSegment1 .nextFreeSegment newSegment2
      let m := m.write newSegment1 .nextSegment newSegment2
      let m := m.write currentSegment .nextSegment newSegment1
      m.write currentSegment .nextFreeSegment newSegment2
  else
    let m := m.write newSegment1 .nextSegment 0
    let m := m.write newSegment1 .nextFreeSegment 0
    let m := m.write newSegment1 .previousSegment currentSegment
    let m := m.write newSegment1 .previousFreeSegment
      (if m.read currentSegment .free ≠ 0 then currentSegment
        else m.read currentSegment .previousFreeSegment)
    let m := m.write currentSegment .nextSegment 0
    some (m.write currentSegment .nextFreeSegment 0)

/-- The part of `malloc` that gets new pages when `currentSegment`, where the search
ended, is too small. -/
def mallocExtend (size currentSegment : Nat) (frames : List Frame) (s : HeapState) :
    Option (HeapState × Nat) :=
  let (s, baseAddr) := pallocHeap (extensionPages size) frames s
  if baseAddr = NO_ADDR then some (s, NO_ADDR)
  else (linkNewPages size currentSegment baseAddr s.memory).map fun m =>
    ({ s with memory := m }, u32 (baseAddr + headerSize))

/-- `malloc`; `none` when one of its loops does not end. -/
def malloc (size : Nat) (frames : List Frame) (s : HeapState) : Option (HeapState × Nat) :=
  let size := roundSize size
  match firstFit s.memory size s.firstFreeSegment with
  | none => none
  | some currentSegment =>
      if s.memory.read currentSegment .memoryLength < size then
        mallocExtend size currentSegment frames s
      else
        some (mallocSplit size currentSegment s)

/-! ## `free` -/

/-- One branch of `CombineFreeSegments`: `a`, the lower of the two, takes over `b`. -/
def absorb (a b : Nat) (m : Memory) : Memory :=
  let m := m.write a .memoryLength
    (u32 (m.read a .memoryLength + (m.read b .memoryLength + headerSize)))
  let m := m.write a .nextSegment (m.read b .nextSegment)
  let m := m.write a .nextFreeSegment (m.read b .nextFreeSegment)
  let m := m.write (m.read b .nextSegment) .previousSegment a
  let m := m.write (m.read b .nextSegment) .previousFreeSegment a
  m.write (m.read b .nextFreeSegment) .previousFreeSegment a

def combineFreeSegments (a b : Nat) (m : Memory) : Memory :=
  if a = 0 then m
  else if b = 0 then m
  else if a < b then absorb a b m
  else absorb b a m

/-- `free` makes the free segment after its own point back to it. -/
def relinkNextFree (currentMemorySegment : Nat) (m : Memory) : Memory :=
  if m.read currentMemorySegment .nextFreeSegment ≠ 0 then
    if m.read (m.read currentMemorySegment .nextFreeSegment) .previousFreeSegment
        < currentMemorySegment then
      m.write (m.read currentMemorySegment .nextFreeSegment) .previousFreeSegment
        currentMemorySegment
    else m
  else m

/-- `free` makes the free segment before its own point to it. -/
def relinkPreviousFree (currentMemorySegment : Nat) (m : Memory) : Memory :=
  if m.read currentMemorySegment .previousFreeSegment ≠ 0 then
    if m.read (m.read currentMemorySegment .previousFreeSegment) .nextFreeSegment
        > currentMemorySegment then
      m.write (m.read currentMemorySegment .previousFreeSegment) .nextFreeSegment
        currentMemorySegment
    else m
  else m

/-- `free` merges its segment with a free segment after it. -/
def mergeNext (currentMemorySegment : Nat) (m : Memory) : Memory :=
  if m.read currentMemorySegment .nextSegment ≠ 0 then
    let m := m.write (m.read currentMemorySegment .nextSegment) .previousSegment
      currentMemorySegment
    if m.read (m.read currentMemorySegment .nextSegment) .free ≠ 0 then
      combineFreeSegments currentMemorySegment (m.read currentMemorySegment .nextSegment) m
    else m
  else m

/-- `free` merges its segment with a free segment before it. -/
def mergePrevious (currentMemorySegment : Nat) (m : Memory) : Memory :=
  if m.read currentMemorySegment .previousSegment ≠ 0 then
    let m := m.write (m.read currentMemorySegment .previousSegment) .nextSegment
      currentMemorySegment
    if m.read (m.read currentMemorySegment .previousSegment) .free ≠ 0 then
      combineFreeSegments currentMemorySegment
        (m.read currentMemorySegment .previousSegment) m
    else m
  else m

/-- The header in front of a payload. -/
def headerOf (address : Nat) : Nat := u32 (address + 4294967296 - headerSize)

def free (address : Nat) (s : HeapState) : HeapState :=
  let currentMemorySegment := headerOf address
  let m := s.memory.write currentMemorySegment .free 1
  let firstFreeSegment :=
    if currentMemorySegment < s.firstFreeSegment then currentMemorySegment
    else s.firstFreeSegment
  let m := relinkNextFree currentMemorySegment m
  let m := relinkPreviousFree currentMemorySegment m
  let m := mergeNext currentMemorySegment m
  let m := mergePrevious currentMemorySegment m
  { s with memory := m, firstFreeSegment := firstFreeSegment }

end NickOS3.Heap
