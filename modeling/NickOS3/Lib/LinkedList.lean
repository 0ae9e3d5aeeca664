import NickOS3.Words
import Mathlib.Logic.Function.Basic

/-!
# The linked list of the kernel library

`list_init`, `list_init_with`, `pop`, `push`, `append`, `is_empty`, `remove` and
`list_get`. Memory holds a list element at every address, the null pointer included: the
code reads and writes through null pointers like through others. `malloc` gives the address
of a block together with what the block held before.
-/

namespace NickOS3.Lib

/-- `list_elem` -/
structure ListElem where
  data : Nat
  next : Nat
  prev : Nat
  deriving DecidableEq

/-- `list` -/
structure LinkedList where
  size : Nat
  head : Nat
  tail : Nat

/-- A block that `malloc` returns, with what it held before. -/
structure Block where
  address : Nat
  content : ListElem

/-- Memory and the list. The blocks that `malloc` returned and the element pointers that
were dereferenced, newest first, are history: no function reads them. -/
structure ListState where
  elems : Nat → ListElem
  list : LinkedList
  blocks : List Nat
  touched : List Nat

/-- A computation on the list; it fails when it panics or does not end. -/
abbrev ListM := StateT ListState Option

/-! ## Accesses -/

/-- Change the element at `elem`. -/
def ListState.modifyElem (s : ListState) (elem : Nat) (f : ListElem → ListElem) : ListState :=
  { s with
    elems := Function.update s.elems elem (f (s.elems elem))
    touched := elem :: s.touched }

def ListState.touch (s : ListState) (elem : Nat) : ListState :=
  { s with touched := elem :: s.touched }

def readData (elem : Nat) : ListM Nat := fun s => some ((s.elems elem).data, s.touch elem)

def readNext (elem : Nat) : ListM Nat := fun s => some ((s.elems elem).next, s.touch elem)

def readPrev (elem : Nat) : ListM Nat := fun s => some ((s.elems elem).prev, s.touch elem)

def writeData (elem v : Nat) : ListM Unit :=
  fun s => some ((), s.modifyElem elem fun e => { e with data := v })

def writeNext (elem v : Nat) : ListM Unit :=
  fun s => some ((), s.modifyElem elem fun e => { e with next := v })

def writePrev (elem v : Nat) : ListM Unit :=
  fun s => some ((), s.modifyElem elem fun e => { e with prev := v })

def size : ListM Nat := fun s => some (s.list.size, s)

def head : ListM Nat := fun s => some (s.list.head, s)

def tail : ListM Nat := fun s => some (s.list.tail, s)

def setSize (v : Nat) : ListM Unit :=
  fun s => some ((), { s with list := { s.list with size := v } })

def setHead (v : Nat) : ListM Unit :=
  fun s => some ((), { s with list := { s.list with head := v } })

def setTail (v : Nat) : ListM Unit :=
  fun s => some ((), { s with list := { s.list with tail := v } })

/-- `malloc(sizeof(list_elem))` -/
def malloc (block : Block) : ListM Nat := fun s =>
  some (block.address, { s with
    elems := Function.update s.elems block.address block.content
    blocks := block.address :: s.blocks })

section Runs

variable {α β : Type} {s : ListState}

@[simp] theorem bind_run (m : ListM α) (f : α → ListM β) :
    (m >>= f) s = (m s).bind fun r => f r.1 r.2 := rfl

@[simp] theorem map_run (f : α → β) (m : ListM α) :
    (f <$> m) s = (m s).map fun r => (f r.1, r.2) := by
  cases h : m s <;> simp [Functor.map, StateT.map, h]

@[simp] theorem pure_run (a : α) : (pure a : ListM α) s = some (a, s) := rfl

@[simp] theorem readData_run (elem : Nat) :
    readData elem s = some ((s.elems elem).data, s.touch elem) := rfl

@[simp] theorem readNext_run (elem : Nat) :
    readNext elem s = some ((s.elems elem).next, s.touch elem) := rfl

@[simp] theorem readPrev_run (elem : Nat) :
    readPrev elem s = some ((s.elems elem).prev, s.touch elem) := rfl

@[simp] theorem writeData_run (elem v : Nat) :
    writeData elem v s = some ((), s.modifyElem elem fun e => { e with data := v }) := rfl

@[simp] theorem writeNext_run (elem v : Nat) :
    writeNext elem v s = some ((), s.modifyElem elem fun e => { e with next := v }) := rfl

@[simp] theorem writePrev_run (elem v : Nat) :
    writePrev elem v s = some ((), s.modifyElem elem fun e => { e with prev := v }) := rfl

@[simp] theorem size_run : size s = some (s.list.size, s) := rfl

@[simp] theorem head_run : head s = some (s.list.head, s) := rfl

@[simp] theorem tail_run : tail s = some (s.list.tail, s) := rfl

@[simp] theorem setSize_run (v : Nat) :
    setSize v s = some ((), { s with list := { s.list with size := v } }) := rfl

@[simp] theorem setHead_run (v : Nat) :
    setHead v s = some ((), { s with list := { s.list with head := v } }) := rfl

@[simp] theorem setTail_run (v : Nat) :
    setTail v s = some ((), { s with list := { s.list with tail := v } }) := rfl

@[simp] theorem malloc_run (block : Block) :
    malloc block s = some (block.address, { s with
      elems := Function.update s.elems block.address block.content
      blocks := block.address :: s.blocks }) := rfl

end Runs

/-! ## Operations -/

/-- A new empty list. -/
def listInit : ListM Unit := do
  setSize 0
  setTail 0
  setHead 0

/-- A new list with one element. -/
def listInitWith (data : Nat) (block : Block) : ListM Unit := do
  setSize 1
  let elem ← malloc block
  setHead elem
  setTail elem
  writeData (← head) data
  setSize 1

def isEmpty : ListM Bool := do
  return (← size) = 0

def pop : ListM Nat := do
  if ← isEmpty then return 0
  else
    let elem ← head
    setHead (← readNext elem)
    writePrev (← head) 0
    let data ← readData elem
    setSize (u32 ((← size) + 4294967295))
    return data

def push (data : Nat) (block : Block) : ListM Unit := do
  let elem ← malloc block
  writeData elem data
  writeNext elem (← head)
  writePrev (← head) elem
  setHead elem
  setSize (u32 ((← size) + 1))

def append (data : Nat) (block : Block) : ListM Unit := do
  let elem ← malloc block
  writeData elem data
  if ← isEmpty then
    setHead elem
    setTail elem
    writePrev elem 0
    writeNext elem 0
    setSize (u32 ((← size) + 1))
  else
    writePrev elem (← tail)
    setTail elem
    writeNext (← readPrev elem) elem
    setSize (u32 ((← size) + 1))

/-- The loop of `remove`: skip an element while it holds other data and is not the last. -/
def findElem (data : Nat) : Nat → Nat → ListM Nat
  | 0, _ => fun _ => none
  | fuel + 1, elem => do
      if (← readData elem) ≠ data then
        if (← readNext elem) ≠ 0 then findElem data fuel (← readNext elem) else return elem
      else return elem

/-- `remove` makes the element before lead past `elem`. -/
def unlinkNext (elem : Nat) : ListM Unit := do
  if elem = (← head) then
    setHead (← readNext elem)
    writePrev (← head) 0
  else
    writeNext (← readPrev elem) (← readNext elem)

/-- `remove` makes the element behind lead back past `elem`. -/
def unlinkPrev (elem : Nat) : ListM Unit := do
  if elem = (← tail) then setTail (← readPrev elem)
  else writePrev (← readNext elem) (← readPrev elem)

def remove (data : Nat) : ListM Bool := do
  let elem ← findElem data loopBound (← head)
  if (← readData elem) = data then
    unlinkNext elem
    unlinkPrev elem
    setSize (u32 ((← size) + 4294967295))
    return true
  else return false

/-- The loop of `list_get`. -/
def elemAt : Nat → Nat → ListM Nat
  | 0, elem => return elem
  | idx + 1, elem => do elemAt idx (← readNext elem)

/-- `list_get`; it panics when the index is out of bounds. -/
def listGet (idx : Nat) : ListM Nat := do
  if idx ≥ (← size) then fun _ => none
  else readData (← elemAt idx (← head))

end NickOS3.Lib
