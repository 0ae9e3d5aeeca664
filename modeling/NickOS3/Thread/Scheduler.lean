import NickOS3.Thread.State

/-!
# The scheduler

The functions of `thread.c`. What runs with interrupts off is one function here; a function
that goes on with interrupts as its caller had them ends where the next step begins.
-/

namespace NickOS3.Thread

def TIME_SLICE : Nat := 4

namespace Kernel

variable (s : Kernel)

/-! ## Switching -/

/-- `append` on the ready queue; it allocates the list element. -/
@[simps!]
def appendReady (t : Nat) : Kernel :=
  { (s.record .malloc).record (.append .readyThreads) with
    readyThreads := s.readyThreads ++ [t] }

/-- The thread that `get_next_thread` returns. -/
def selected : Nat := s.readyThreads.head?.getD s.idleThread

/-- The pop of `get_next_thread`. -/
def popReady : Kernel :=
  if s.readyThreads = [] then s
  else { s.record (.pop .readyThreads) with readyThreads := s.readyThreads.tail }

/-- `get_next_thread` -/
def getNextThread : Nat × Kernel := (s.selected, s.popReady)

/-- `thread_kill` -/
@[simps!]
def threadKill (t : Nat) : Kernel :=
  { (s.record (.remove .allThreads)).record (.remove .readyThreads) with
    allThreads := s.allThreads.erase t
    readyThreads := s.readyThreads.erase t
    kills := ⟨t, s.status t, s.current⟩ :: s.kills }

/-- `switch_complete` -/
def switchComplete (prev : Nat) : Kernel :=
  let s := { s.setStatus s.current .running with
    tickCount := 0
    completions := ⟨prev, s.current⟩ :: s.completions }
  if s.status prev = .dying then s.threadKill prev else s

/-- `schedule`. Both ways out of `context_switch`, into `schedule` and into
`first_switch`, go on with `switch_complete`. -/
def schedule : Kernel :=
  let curr := s.current
  let (next, s) := s.getNextThread
  if s.intFlag then s.stop .schedulingEnabled
  else if s.status curr = .running then s.stop .stillRunning
  else if curr ≠ next then
    if next = 0 then { s with outcome := .nullThread }
    else { s with current := next }.switchComplete curr
  else s.switchComplete 0

section Frame

theorem popReady_eq : s.popReady = { s with
    readyThreads := s.readyThreads.tail
    sharedOps := s.popReady.sharedOps } := by
  unfold popReady
  split
  case isTrue h =>
    have htail : s.readyThreads.tail = s.readyThreads := by rw [h, List.tail_nil]
    rw [htail]
  case isFalse => rfl

theorem switchComplete_eq (prev : Nat) : s.switchComplete prev = { s with
    status := Function.update s.status s.current .running
    readyThreads := (s.switchComplete prev).readyThreads
    allThreads := (s.switchComplete prev).allThreads
    tickCount := 0
    kills := (s.switchComplete prev).kills
    completions := ⟨prev, s.current⟩ :: s.completions
    sharedOps := (s.switchComplete prev).sharedOps } := by
  unfold switchComplete
  dsimp only
  split <;> rfl

theorem schedule_eq : s.schedule = { s with
    current := s.schedule.current
    status := s.schedule.status
    readyThreads := s.schedule.readyThreads
    allThreads := s.schedule.allThreads
    tickCount := s.schedule.tickCount
    outcome := s.schedule.outcome
    kills := s.schedule.kills
    completions := s.schedule.completions
    sharedOps := s.schedule.sharedOps } := by
  unfold schedule getNextThread
  rw [popReady_eq]
  dsimp only
  repeat' split
  · rfl
  · rfl
  · rfl
  · rw [switchComplete_eq]
  · rw [switchComplete_eq]

@[simp] theorem schedule_intFlag : s.schedule.intFlag = s.intFlag := by rw [schedule_eq]

@[simp] theorem schedule_inService : s.schedule.inService = s.inService := by rw [schedule_eq]

@[simp] theorem schedule_sleeperList : s.schedule.sleeperList = s.sleeperList := by
  rw [schedule_eq]

@[simp] theorem schedule_idleThread : s.schedule.idleThread = s.idleThread := by
  rw [schedule_eq]

@[simp] theorem schedule_numThreads : s.schedule.numThreads = s.numThreads := by
  rw [schedule_eq]

@[simp] theorem schedule_semas : s.schedule.semas = s.semas := by rw [schedule_eq]

@[simp] theorem schedule_holder : s.schedule.holder = s.holder := by rw [schedule_eq]

@[simp] theorem schedule_place : s.schedule.place = s.place := by rw [schedule_eq]

@[simp] theorem schedule_inHandler : s.schedule.inHandler = s.inHandler := by rw [schedule_eq]

@[simp] theorem schedule_created : s.schedule.created = s.created := by rw [schedule_eq]

@[simp] theorem schedule_pending : s.schedule.pending = s.pending := by rw [schedule_eq]

@[simp] theorem schedule_returned : s.schedule.returned = s.returned := by rw [schedule_eq]

@[simp] theorem schedule_initialised : s.schedule.initialised = s.initialised := by
  rw [schedule_eq]

@[simp] theorem schedule_counts : s.schedule.counts = s.counts := by rw [schedule_eq]

@[simp] theorem schedule_inside : s.schedule.inside = s.inside := by rw [schedule_eq]

/-- `schedule` stays in its thread or goes on in the one selected. -/
theorem schedule_current : s.schedule.current = s.current ∨
    s.schedule.current = s.selected ∧ s.selected ≠ 0 := by
  unfold schedule getNextThread
  rw [popReady_eq]
  dsimp only
  repeat' split
  · exact .inl rfl
  · exact .inl rfl
  · exact .inl rfl
  case _ h0 =>
    rw [switchComplete_eq]
    exact .inr ⟨rfl, h0⟩
  · rw [switchComplete_eq]
    exact .inl rfl

/-- How `schedule` can stop the kernel with interrupts off. -/
theorem schedule_outcome (hoff : s.intFlag = false) : s.schedule.outcome = s.outcome ∨
    s.schedule.outcome = .panic .stillRunning ∧ s.status s.current = .running ∨
    s.schedule.outcome = .nullThread ∧ s.selected = 0 ∧ s.status s.current ≠ .running := by
  unfold schedule getNextThread
  rw [popReady_eq]
  simp only [hoff, Bool.false_eq_true, if_false]
  split
  case isTrue hstatus => exact .inr (.inl ⟨rfl, hstatus⟩)
  case isFalse hstatus =>
    repeat' split
    case _ h0 => exact .inr (.inr ⟨rfl, h0, hstatus⟩)
    · rw [switchComplete_eq]
      exact .inl rfl
    · rw [switchComplete_eq]
      exact .inl rfl

/-- What `schedule` does when it does not stop the kernel. -/
theorem schedule_running (hrun : s.schedule.outcome = .running) :
    s.intFlag = false ∧ s.status s.current ≠ .running ∧
      (s.selected = s.current ∧ s.schedule = s.popReady.switchComplete 0 ∨
        s.selected ≠ s.current ∧ s.selected ≠ 0 ∧
          s.schedule = { s.popReady with current := s.selected }.switchComplete s.current) := by
  unfold schedule getNextThread at hrun ⊢
  have hsame : s.popReady.intFlag = s.intFlag ∧ s.popReady.status = s.status := by
    rw [popReady_eq]
    exact ⟨rfl, rfl⟩
  dsimp only at hrun ⊢
  rw [hsame.1, hsame.2] at hrun ⊢
  split at hrun
  case isTrue => exact absurd hrun nofun
  case isFalse hflag =>
    split at hrun
    case isTrue => exact absurd hrun nofun
    case isFalse hstatus =>
      rw [if_neg hflag, if_neg hstatus]
      refine ⟨by simpa using hflag, hstatus, ?_⟩
      by_cases hne : s.current ≠ s.selected
      · rw [if_pos hne] at hrun ⊢
        split at hrun
        case isTrue => exact absurd hrun nofun
        case isFalse h0 =>
          rw [if_neg h0]
          exact .inr ⟨hne.symm, h0, rfl⟩
      · rw [if_neg hne]
        exact .inl ⟨(not_not.mp hne).symm, rfl⟩

end Frame

/-! ## Yielding, blocking and unblocking -/

/-- `thread_yield` appends the running thread to the ready queue unless it is idle. -/
def requeue : Kernel :=
  if s.current ≠ s.idleThread then s.appendReady s.current else s

theorem requeue_eq : s.requeue = { s with
    readyThreads := s.requeue.readyThreads
    sharedOps := s.requeue.sharedOps } := by
  unfold requeue
  split <;> rfl

@[simp] theorem requeue_current : s.requeue.current = s.current := by rw [requeue_eq]

@[simp] theorem requeue_intFlag : s.requeue.intFlag = s.intFlag := by rw [requeue_eq]

@[simp] theorem requeue_inService : s.requeue.inService = s.inService := by rw [requeue_eq]

@[simp] theorem requeue_status : s.requeue.status = s.status := by rw [requeue_eq]

@[simp] theorem requeue_allThreads : s.requeue.allThreads = s.allThreads := by rw [requeue_eq]

@[simp] theorem requeue_idleThread : s.requeue.idleThread = s.idleThread := by rw [requeue_eq]

@[simp] theorem requeue_numThreads : s.requeue.numThreads = s.numThreads := by rw [requeue_eq]

@[simp] theorem requeue_semas : s.requeue.semas = s.semas := by rw [requeue_eq]

@[simp] theorem requeue_holder : s.requeue.holder = s.holder := by rw [requeue_eq]

@[simp] theorem requeue_place : s.requeue.place = s.place := by rw [requeue_eq]

@[simp] theorem requeue_inHandler : s.requeue.inHandler = s.inHandler := by rw [requeue_eq]

@[simp] theorem requeue_outcome : s.requeue.outcome = s.outcome := by rw [requeue_eq]

@[simp] theorem requeue_created : s.requeue.created = s.created := by rw [requeue_eq]

@[simp] theorem requeue_kills : s.requeue.kills = s.kills := by rw [requeue_eq]

@[simp] theorem requeue_completions : s.requeue.completions = s.completions := by
  rw [requeue_eq]

@[simp] theorem requeue_pending : s.requeue.pending = s.pending := by rw [requeue_eq]

@[simp] theorem requeue_returned : s.requeue.returned = s.returned := by rw [requeue_eq]

@[simp] theorem requeue_initialised : s.requeue.initialised = s.initialised := by
  rw [requeue_eq]

@[simp] theorem requeue_counts : s.requeue.counts = s.counts := by rw [requeue_eq]

@[simp] theorem requeue_inside : s.requeue.inside = s.inside := by rw [requeue_eq]

/-- `thread_yield` behind `int_disable`, up to its call of `schedule`. -/
def yieldOff : Kernel := (s.setStatus s.current .ready).requeue.schedule

/-- `thread_yield` -/
def threadYield : Kernel :=
  let level := s.intFlag
  ((s.enter .threadYield).intDisable.goto (.yielded level)).yieldOff

/-- The rest of `thread_yield`. -/
def yieldReturn (level : Bool) : Kernel := (s.intSet level).leave.goto .user

/-- `thread_block`, up to its call of `schedule`. -/
def threadBlock : Kernel :=
  if s.intFlag then s.stop .blockEnabled else (s.setStatus s.current .blocked).schedule

theorem threadBlock_eq : s.threadBlock = { s with
    current := s.threadBlock.current
    status := s.threadBlock.status
    readyThreads := s.threadBlock.readyThreads
    allThreads := s.threadBlock.allThreads
    tickCount := s.threadBlock.tickCount
    outcome := s.threadBlock.outcome
    kills := s.threadBlock.kills
    completions := s.threadBlock.completions
    sharedOps := s.threadBlock.sharedOps } := by
  unfold threadBlock
  split
  · rfl
  · rw [schedule_eq]
    rfl

@[simp] theorem yieldOff_idleThread : s.yieldOff.idleThread = s.idleThread := by
  rw [yieldOff, schedule_idleThread, requeue_idleThread]
  rfl

@[simp] theorem yieldOff_numThreads : s.yieldOff.numThreads = s.numThreads := by
  rw [yieldOff, schedule_numThreads, requeue_numThreads]
  rfl

@[simp] theorem yieldOff_semas : s.yieldOff.semas = s.semas := by
  rw [yieldOff, schedule_semas, requeue_semas]
  rfl

@[simp] theorem yieldOff_holder : s.yieldOff.holder = s.holder := by
  rw [yieldOff, schedule_holder, requeue_holder]
  rfl

@[simp] theorem yieldOff_place : s.yieldOff.place = s.place := by
  rw [yieldOff, schedule_place, requeue_place]
  rfl

@[simp] theorem yieldOff_inHandler : s.yieldOff.inHandler = s.inHandler := by
  rw [yieldOff, schedule_inHandler, requeue_inHandler]
  rfl

@[simp] theorem yieldOff_created : s.yieldOff.created = s.created := by
  rw [yieldOff, schedule_created, requeue_created]
  rfl

@[simp] theorem yieldOff_initialised : s.yieldOff.initialised = s.initialised := by
  rw [yieldOff, schedule_initialised, requeue_initialised]
  rfl

@[simp] theorem yieldOff_counts : s.yieldOff.counts = s.counts := by
  rw [yieldOff, schedule_counts, requeue_counts]
  rfl

@[simp] theorem yieldOff_inside : s.yieldOff.inside = s.inside := by
  rw [yieldOff, schedule_inside, requeue_inside]
  rfl

@[simp] theorem threadBlock_idleThread : s.threadBlock.idleThread = s.idleThread := by
  rw [threadBlock_eq]

@[simp] theorem threadBlock_numThreads : s.threadBlock.numThreads = s.numThreads := by
  rw [threadBlock_eq]

@[simp] theorem threadBlock_semas : s.threadBlock.semas = s.semas := by
  rw [threadBlock_eq]

@[simp] theorem threadBlock_holder : s.threadBlock.holder = s.holder := by
  rw [threadBlock_eq]

@[simp] theorem threadBlock_place : s.threadBlock.place = s.place := by
  rw [threadBlock_eq]

@[simp] theorem threadBlock_inHandler : s.threadBlock.inHandler = s.inHandler := by
  rw [threadBlock_eq]

@[simp] theorem threadBlock_created : s.threadBlock.created = s.created := by
  rw [threadBlock_eq]

@[simp] theorem threadBlock_initialised : s.threadBlock.initialised = s.initialised := by
  rw [threadBlock_eq]

@[simp] theorem threadBlock_counts : s.threadBlock.counts = s.counts := by
  rw [threadBlock_eq]

@[simp] theorem threadBlock_inside : s.threadBlock.inside = s.inside := by
  rw [threadBlock_eq]

/-- The checks of `thread_unblock`. -/
def unblockCheck (t : Nat) : Option Panic :=
  if ¬ s.isThread t then some .notThread
  else if s.status t ≠ .blocked then some .notBlocked
  else none

/-- `thread_unblock` behind its checks. -/
def unblockOff (t : Nat) : Kernel :=
  let level := s.intFlag
  ((s.intDisable.appendReady t).setStatus t .ready).intSet level

/-- `thread_unblock`, up to its checks; `created` when `thread_create` calls it. -/
def threadUnblock (t : Nat) (created : Bool) : Kernel :=
  let s := s.enter .threadUnblock
  match s.unblockCheck t with
  | some p => s.stop p
  | none => s.goto (.unblocking t created)

/-- The rest of `thread_unblock`, and of the `thread_create` that called it. -/
def unblockReturn (t : Nat) (created : Bool) : Kernel :=
  let s := (s.unblockOff t).leave
  (if created then s.leave else s).goto .user

/-! ## Creating, ending and sleeping -/

/-- The page of a new thread, with the frames that lead into `run`. The three pages behind it,
which `palloc_kern` clears as well, are no thread's. -/
@[simps]
def newThread (new : Nat) (function : ThreadFunc) : Kernel :=
  { s with
    numThreads := new
    status := Function.update s.status new .blocked
    place := Function.update s.place new (.entry function)
    inHandler := Function.update s.inHandler new false
    pending := Function.update s.pending new [] }

/-- `thread_create`, up to the frames on the new stack. Its search for a free frame comes with it
in one step: no tick lands in it. -/
def threadCreate (function : ThreadFunc) : Kernel :=
  let s := (s.enter .threadCreate).record .getNextFreePhysicalPage
  let new := s.numThreads + 1
  let s := s.newThread new function
  let level := s.intFlag
  (s.intDisable.intSet level).goto (.createAppend new)

/-- `append` on `all_threads` -/
@[simps!]
def appendAll (new : Nat) : Kernel :=
  { (s.record .malloc).record (.append .allThreads) with
    allThreads := s.allThreads ++ [new]
    created := new :: s.created }

/-- `thread_create` appends to `all_threads`. -/
def createAppend (new : Nat) : Kernel := (s.appendAll new).goto (.createUnblock new)

/-- `run`, up to its call of the function. -/
def run (function : ThreadFunc) : Kernel :=
  match function with
  | .null => s.stop .nullFunction
  | .idle => s.intEnable.goto .idleStart
  | .code => s.intEnable.goto .user

/-- `run` after the function has returned. -/
def runReturn : Kernel := (s.setStatus s.current .dying).goto .dying

/-- The last steps of `run`. -/
def runEnd : Kernel := (s.intDisable.goto .dead).schedule

/-- `thread_sleep`, up to `malloc`. -/
def threadSleep (t ticks : Nat) : Kernel :=
  if ticks = 0 then s
  else if ¬ s.isThread t then s.stop .notThread
  else (s.record .malloc).goto (.sleeping t)

/-- `append` on `sleeper_list` -/
@[simps!]
def appendSleeper (t : Nat) : Kernel :=
  { (s.record .malloc).record (.append .sleeperList) with
    sleeperList := s.sleeperList ++ [t] }

/-- `remove` on `ready_threads` -/
@[simps!]
def removeReady (t : Nat) : Kernel :=
  { s.record (.remove .readyThreads) with readyThreads := s.readyThreads.erase t }

/-- The rest of `thread_sleep`. -/
def sleepOff (t : Nat) : Kernel :=
  let level := s.intFlag
  ((((s.intDisable.appendSleeper t).setStatus t .blocked).removeReady t).intSet level).goto .user

/-! ## The timer interrupt -/

/-- `idt_global_int_wrapper` after `thread_tick`: the end of interrupt and `iret`. -/
@[simps!]
def endInterrupt : Kernel :=
  { s with
    inService := false
    inHandler := Function.update s.inHandler s.current false
    intFlag := true }

/-- The timer interrupt is taken, and `thread_tick` counts it. -/
@[simps]
def interrupt : Kernel :=
  { s with
    intFlag := false
    inService := true
    inHandler := Function.update s.inHandler s.current true
    tickCount := s.tickCount + 1 }

/-- The timer interrupt, up to the `schedule` of its `thread_yield` when it preempts. -/
def threadTick : Kernel :=
  let s := s.interrupt
  if s.tickCount ≥ TIME_SLICE then (s.enter .threadYield).intDisable.yieldOff
  else s.endInterrupt

/-- A thread that a tick has stopped runs again: the rest of `thread_yield` and of the
interrupt. -/
def tickReturn : Kernel := (s.intSet false).leave.endInterrupt

end Kernel

end NickOS3.Thread
