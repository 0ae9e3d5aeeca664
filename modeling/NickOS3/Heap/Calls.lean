import NickOS3.Foundation.Runs
import NickOS3.Heap.Allocator

/-!
# Runs of the allocator

A run starts with `initialiseHeap(base, PGSIZE)` over arbitrary memory and goes on
with calls of `malloc` and of `free`, the latter on pointers that `malloc` returned
and that have not been freed since.
-/

namespace NickOS3.Heap

open Foundation

/-- The heap with its live blocks: the pointer returned and the size asked for. -/
structure HeapRun where
  heap : HeapState
  live : List (Nat × Nat)

/-- A call. `frames` are the frames `get_next_free_physical_page` has to give during
the call, with what they hold. -/
inductive HeapCall
  | malloc (size : Nat) (frames : List Frame)
  | free (address : Nat)

/-- The effect of a call; `none` when it does not return or frees what is not live. -/
def HeapRun.call (s : HeapRun) : HeapCall → Option HeapRun
  | .malloc size frames =>
      (malloc size frames s.heap.forgetWrites).map fun (heap, p) =>
        { heap := heap, live := if p = NO_ADDR then s.live else (p, size) :: s.live }
  | .free address =>
      if address ∈ s.live.map Prod.fst then
        some { heap := free address s.heap.forgetWrites
               live := s.live.filter fun block => block.1 ≠ address }
      else none

/-- Sizes are 32-bit, and there are no more frames than pages of the address space left
above the pool. -/
def HeapCall.Proper (s : HeapRun) : HeapCall → Prop
  | .malloc size frames =>
      size < 4294967296 ∧ frames.length ≤ 1048576 - s.heap.nextFreePageIndex
  | .free _ => True

instance (r : HeapRun) : (a : HeapCall) → Decidable (a.Proper r)
  | .malloc _ _ => inferInstanceAs (Decidable (_ ∧ _))
  | .free _ => inferInstanceAs (Decidable True)

/-- Runs from `initialiseHeap(base, PGSIZE)`, where `base` is a page below the next page
`index` of the pool. -/
def heapMachine (base index : Nat) : Machine HeapRun HeapCall where
  start s := (base % PGSIZE = 0 ∧ base / PGSIZE < index ∧ index ≤ 1048576) ∧
    ∃ memory first,
      s = { heap := initialiseHeap base PGSIZE ⟨memory, first, index⟩, live := [] }
  step s a s' := a.Proper s ∧ s.call a = some s'

/-- The heap as `initialiseHeap` leaves it over memory without any content. -/
def blankHeap (base index : Nat) : HeapRun :=
  ⟨initialiseHeap base PGSIZE ⟨⟨fun _ => 0, []⟩, 0, index⟩, []⟩

theorem blankHeap_start {base index : Nat}
    (h : base % PGSIZE = 0 ∧ base / PGSIZE < index ∧ index ≤ 1048576) :
    (heapMachine base index).start (blankHeap base index) :=
  ⟨h, _, 0, rfl⟩

/-- A list of calls in turn. -/
def HeapRun.calls (s : HeapRun) : List HeapCall → Option HeapRun
  | [] => some s
  | a :: rest => (s.call a).bind fun s => s.calls rest

theorem reach_calls {base index : Nat} {allowed : HeapRun → HeapCall → Prop}
    {s s' : HeapRun} {as : List HeapCall}
    (run : (heapMachine base index).Reach allowed s)
    (hall : ∀ s a, a ∈ as → allowed s a) (hproper : ∀ s a, a ∈ as → a.Proper s)
    (h : s.calls as = some s') : (heapMachine base index).Reach allowed s' := by
  induction as generalizing s with
  | nil => cases h; exact run
  | cons a as ih =>
      obtain ⟨mid, hmid, hrest⟩ := Option.bind_eq_some_iff.mp h
      exact ih (.step run (hall s a (by simp)) ⟨hproper s a (by simp), hmid⟩)
        (fun s b hb => hall s b (by simp [hb])) (fun s b hb => hproper s b (by simp [hb]))
        hrest

end NickOS3.Heap
