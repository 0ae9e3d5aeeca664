import NickOS3.Words
import Mathlib.Data.List.Basic
import Mathlib.Logic.Function.Basic
import Mathlib.Tactic.Simps.Basic

/-!
# The state of the scheduler

One processor with its interrupt flag and the timer's in-service bit, the thread table, the
queues of `thread.c` and the semaphores and locks of `synch.c`. Lists are sequences, and a
section with interrupts off is one step. Each thread has a place: where in the kernel code
its stack continues. Thread pointers are numbered as `create_id` does; 0 is the null
pointer, 1 the kernel thread and 2 the idle thread.
-/

namespace NickOS3.Thread

inductive ThreadStatus
  | ready
  | running
  | blocked
  | dying
  deriving DecidableEq

/-- The function a thread is created with; a function other than `idle` is arbitrary code. -/
inductive ThreadFunc
  | null
  | idle
  | code
  deriving DecidableEq

/-- The semaphore `init_started`, a semaphore of its own, or the one inside a lock. -/
inductive SemaRef
  | started
  | sema (n : Nat)
  | lock (l : Nat)
  deriving DecidableEq

/-- `semaphore` -/
structure Semaphore where
  value : Nat
  waiters : List Nat
  deriving DecidableEq

/-- Where a thread continues. A thread that is not running continues behind its call of
`schedule`, or at the place where a tick has stopped it. -/
inductive Place
  /-- Never run: in `first_switch`, before `run`. -/
  | entry (function : ThreadFunc)
  /-- In code of its own. -/
  | user
  /-- In `run`, with the status dying, before `int_disable`. -/
  | dying
  /-- Behind the last `schedule` of `run`. -/
  | dead
  /-- In `thread_init`, before `sema_down(&init_started)`. -/
  | initDown
  /-- In `thread_yield`, behind `schedule`. -/
  | yielded (level : Bool)
  /-- In `thread_block`, behind `schedule`. -/
  | blocked
  /-- In the loop of `sema_down`, behind `thread_block`. -/
  | waiting (r : SemaRef) (level : Bool)
  /-- In `thread_unblock`, behind its checks, before `int_disable`. -/
  | unblocking (t : Nat) (created : Bool)
  /-- In `thread_create`, before the thread is appended to `all_threads`. -/
  | createAppend (new : Nat)
  /-- In `thread_create`, before `thread_unblock`. -/
  | createUnblock (new : Nat)
  /-- In `thread_sleep`, behind `malloc`. -/
  | sleeping (t : Nat)
  /-- In `lock_accquire`, before `sema_down`. -/
  | accquireDown (l : Nat)
  /-- In `lock_accquire`, before `holder` is set. -/
  | setHolder (l : Nat)
  /-- In `lock_release`, before `holder` is cleared. -/
  | clearHolder (l : Nat)
  /-- In `lock_release`, before `sema_up`. -/
  | releaseUp (l : Nat)
  /-- In `idle`, before `idle_thread` is set. -/
  | idleStart
  /-- In `idle`, before `sema_up`. -/
  | idleUp
  /-- In the loop of `idle`, before `int_disable`. -/
  | idleLoop
  /-- In the loop of `idle`, before `thread_block`. -/
  | idleBlock
  /-- In the loop of `idle`, before `sti; hlt`. -/
  | idleHlt
  deriving DecidableEq

inductive Panic
  | schedulingEnabled
  | stillRunning
  | blockEnabled
  | notThread
  | notBlocked
  | nullFunction
  | lockHeld
  | lockNotHeld
  deriving DecidableEq

/-- The kernel runs, has panicked, has switched to a null thread, or has run on behind the
end of `run`. -/
inductive Outcome
  | running
  | panic (p : Panic)
  | nullThread
  | ranOff
  deriving DecidableEq

/-! ## History -/

inductive CallName
  | threadYield
  | semaDown
  | semaUp
  | lockAccquire
  | lockRelease
  | threadUnblock
  | threadCreate
  deriving DecidableEq

/-- A call that has been made, with the interrupt flag at that time. -/
structure PendingCall where
  name : CallName
  before : Bool
  deriving DecidableEq

/-- A call that has returned, with the interrupt flag when it was made and afterwards. -/
structure Return where
  name : CallName
  before : Bool
  after : Bool
  deriving DecidableEq

inductive SharedList
  | allThreads
  | readyThreads
  | sleeperList
  deriving DecidableEq

/-- The work on shared kernel structures. -/
inductive SharedOp
  | malloc
  | getNextFreePhysicalPage
  | append (l : SharedList)
  | pop (l : SharedList)
  | remove (l : SharedList)
  deriving DecidableEq

/-- A call of `switch_complete` in the thread `current`. -/
structure Completion where
  prev : Nat
  current : Nat
  deriving DecidableEq

/-- A call of `thread_kill`, with the status of the thread, in the thread `current`. -/
structure Kill where
  thread : Nat
  status : ThreadStatus
  current : Nat
  deriving DecidableEq

/-- What a semaphore was set up with and the calls completed on it. -/
structure SemaCount where
  initial : Nat
  ups : Nat
  downs : Nat
  deriving DecidableEq

/-- The kernel. No function reads what stands below `outcome`: it is history. The status of
thread 0 is what a null pointer reads, a word of the heap. -/
structure Kernel where
  current : Nat
  intFlag : Bool
  inService : Bool
  status : Nat → ThreadStatus
  readyThreads : List Nat
  allThreads : List Nat
  sleeperList : List Nat
  idleThread : Nat
  tickCount : Nat
  numThreads : Nat
  semas : SemaRef → Semaphore
  holder : Nat → Nat
  place : Nat → Place
  inHandler : Nat → Bool
  outcome : Outcome
  created : List Nat
  kills : List Kill
  completions : List Completion
  sharedOps : List (SharedOp × Bool)
  pending : Nat → List PendingCall
  returned : List Return
  initialised : List SemaRef
  counts : SemaRef → SemaCount
  inside : Nat → List Nat

namespace Kernel

variable (s : Kernel)

@[simps]
def stop (p : Panic) : Kernel := { s with outcome := .panic p }

@[simps]
def setStatus (t : Nat) (st : ThreadStatus) : Kernel :=
  { s with status := Function.update s.status t st }

/-- The running thread goes on at `p`. -/
@[simps]
def goto (p : Place) : Kernel := { s with place := Function.update s.place s.current p }

@[simps]
def setSema (r : SemaRef) (sema : Semaphore) : Kernel :=
  { s with semas := Function.update s.semas r sema }

/-- Work on a shared structure, with the interrupt flag as it is. -/
@[simps]
def record (op : SharedOp) : Kernel := { s with sharedOps := (op, s.intFlag) :: s.sharedOps }

@[simps]
def count (r : SemaRef) (c : SemaCount) : Kernel :=
  { s with counts := Function.update s.counts r c }

/-- The running thread makes a call. -/
@[simps]
def enter (name : CallName) : Kernel :=
  { s with
    pending := Function.update s.pending s.current (⟨name, s.intFlag⟩ :: s.pending s.current) }

/-- The latest call of the running thread returns. -/
@[simps]
def leave : Kernel :=
  { s with
    pending := Function.update s.pending s.current (s.pending s.current).tail
    returned := ((s.pending s.current).head?.map fun call =>
      ⟨call.name, call.before, s.intFlag⟩).toList ++ s.returned }

/-- `int_disable` -/
@[simps]
def intDisable : Kernel := { s with intFlag := false }

/-- `int_enable` -/
@[simps]
def intEnable : Kernel := { s with intFlag := true }

/-- `int_set` -/
@[simps]
def intSet (level : Bool) : Kernel := { s with intFlag := if level then true else s.intFlag }

/-- A thread is in memory: its page has the magic word. -/
def isThread (t : Nat) : Bool := decide (t ≠ 0 ∧ t ≤ s.numThreads)

end Kernel

end NickOS3.Thread
