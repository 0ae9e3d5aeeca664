import NickOS3.Foundation.Elements
import NickOS3.Thread.SchedulerInvariant

/-!
# The list elements of the scheduler

`append` allocates an element of the heap for each entry; `pop` and `remove` do not give theirs
back. What each step does to the lists, and in which runs the elements that have been allocated
are the ones that are linked.
-/

namespace NickOS3.Thread

open Foundation

/-- The lists of `thread.c`, and those of the semaphores. -/
inductive QueueName
  | ready
  | all
  | sleepers
  | waiters (r : SemaRef)
  deriving DecidableEq

abbrev QueueOp := ListOp QueueName Nat

namespace Kernel

variable (s : Kernel)

def queues : QueueName → List Nat
  | .ready => s.readyThreads
  | .all => s.allThreads
  | .sleepers => s.sleeperList
  | .waiters r => (s.semas r).waiters

/-! ## What the functions do to the lists -/

/-- The pop of `get_next_thread`. -/
def nextOps : List QueueOp := if s.readyThreads = [] then [] else [.pop .ready]

/-- `switch_complete`, with the removals of `thread_kill`. -/
def completeOps (prev : Nat) : List QueueOp :=
  if (s.setStatus s.current .running).status prev = .dying then
    [.remove .all prev, .remove .ready prev]
  else []

/-- `schedule` -/
def scheduleOps : List QueueOp :=
  s.nextOps ++
    if s.intFlag = true ∨ s.status s.current = .running then []
    else if s.current ≠ s.selected then
      if s.selected = 0 then [] else { s with current := s.selected }.completeOps s.current
    else s.completeOps 0

/-- `thread_yield` behind `int_disable`. -/
def yieldOps : List QueueOp :=
  if s.current ≠ s.idleThread then
    .append .ready s.current :: ((s.setStatus s.current .ready).appendReady s.current).scheduleOps
  else (s.setStatus s.current .ready).scheduleOps

/-- `thread_block` -/
def blockOps : List QueueOp :=
  if s.intFlag = true then [] else (s.setStatus s.current .blocked).scheduleOps

/-- A round of the loop of `sema_down`. -/
def downOps (r : SemaRef) : List QueueOp :=
  if (s.semas r).value = 0 then .append (.waiters r) s.current :: s.blockOps else []

/-- `sema_up` -/
def upOps (r : SemaRef) : List QueueOp :=
  match (s.semas r).waiters with
  | [] => []
  | t :: _ =>
      .pop (.waiters r) :: if (s.unblockCheck t).isNone then [.append .ready t] else []

/-- A call from a thread's own code. -/
def callOps : KernelCall → List QueueOp
  | .threadYield => s.intDisable.yieldOps
  | .threadBlock => s.blockOps
  | .semaDown n => s.intDisable.downOps (.sema n)
  | .semaUp n => s.upOps (.sema n)
  | _ => []

/-- The next step of the running thread. -/
def advanceOps (call : KernelCall) : List QueueOp :=
  match s.place s.current with
  | .user => s.callOps call
  | .initDown => s.intDisable.downOps .started
  | .waiting r _ => s.downOps r
  | .unblocking t _ => [.append .ready t]
  | .accquireDown l => s.intDisable.downOps (.lock l)
  | .releaseUp l => s.upOps (.lock l)
  | .idleUp => s.upOps .started
  | .idleBlock => s.blockOps
  | _ => []

def stepOps : Action → List QueueOp
  | .tick => if s.interrupt.tickCount ≥ TIME_SLICE then s.interrupt.yieldOps else []
  | .run call => if s.inHandler s.current then [] else s.advanceOps call
  | .heapWord _ => []


/-- The running thread neither creates a thread nor ends or puts one to sleep, and sets up no
semaphore. -/
def FixedSets (a : Action) : Prop :=
  ∀ call, a = .run call → s.inHandler s.current = false →
    match s.place s.current with
    | .dying | .dead | .createAppend _ | .createUnblock _ | .sleeping _ => False
    | .user =>
        match call with
        | .threadCreate _ | .threadSleep _ _ | .semaInit _ _ | .lockInit _ | .returns => False
        | _ => True
    | _ => True

variable {s} {s' : Kernel}

/-! ## The lists after a step -/

section Neutral

variable (s)

@[simp] theorem queues_stop (p : Panic) : (s.stop p).queues = s.queues := rfl

@[simp] theorem queues_setStatus (t : Nat) (st : ThreadStatus) :
    (s.setStatus t st).queues = s.queues := rfl

@[simp] theorem queues_goto (p : Place) : (s.goto p).queues = s.queues := rfl

@[simp] theorem queues_record (op : SharedOp) : (s.record op).queues = s.queues := rfl

@[simp] theorem queues_count (r : SemaRef) (c : SemaCount) : (s.count r c).queues = s.queues := rfl

@[simp] theorem queues_enter (name : CallName) : (s.enter name).queues = s.queues := rfl

@[simp] theorem queues_leave : s.leave.queues = s.queues := rfl

@[simp] theorem queues_intDisable : s.intDisable.queues = s.queues := rfl

@[simp] theorem queues_intEnable : s.intEnable.queues = s.queues := rfl

@[simp] theorem queues_intSet (level : Bool) : (s.intSet level).queues = s.queues := rfl

@[simp] theorem queues_interrupt : s.interrupt.queues = s.queues := rfl

@[simp] theorem queues_endInterrupt : s.endInterrupt.queues = s.queues := rfl

@[simp] theorem queues_assignHolder (l t : Nat) : (s.assignHolder l t).queues = s.queues := rfl

@[simp] theorem queues_setInside (l : Nat) (ts : List Nat) :
    (s.setInside l ts).queues = s.queues := rfl

@[simp] theorem queues_setIdleThread : s.setIdleThread.queues = s.queues := rfl

@[simp] theorem queues_setSema (r : SemaRef) (sema : Semaphore) :
    (s.setSema r sema).queues = Function.update s.queues (.waiters r) sema.waiters := by
  funext q
  cases q with
  | waiters x =>
      by_cases hx : x = r
      · subst hx
        simp [queues]
      · simp [queues, hx]
  | _ => rfl

/-- The value of a semaphore is no list. -/
theorem update_waiters (r : SemaRef) :
    Function.update s.queues (.waiters r) (s.semas r).waiters = s.queues :=
  Function.update_eq_self (.waiters r) s.queues

end Neutral

theorem queues_appendReady (t : Nat) :
    (s.appendReady t).queues = (ListOp.append .ready t : QueueOp).apply s.queues := by
  funext q
  cases q <;> rfl

theorem queues_popReady : s.popReady.queues = s.nextOps.foldl ListOp.apply s.queues := by
  unfold popReady nextOps
  split
  · rfl
  · funext q
    cases q <;> rfl

theorem queues_switchComplete (prev : Nat) :
    (s.switchComplete prev).queues = (s.completeOps prev).foldl ListOp.apply s.queues := by
  unfold switchComplete completeOps
  dsimp only
  split
  · funext q
    cases q <;> rfl
  · rfl

/-- The removals depend on the running thread and on the status of the previous one. -/
theorem completeOps_congr (hcurrent : s'.current = s.current) (hstatus : s'.status = s.status)
    (prev : Nat) : s'.completeOps prev = s.completeOps prev := by
  unfold completeOps
  rw [setStatus_status, setStatus_status, hcurrent, hstatus]

theorem queues_schedule : s.schedule.queues = s.scheduleOps.foldl ListOp.apply s.queues := by
  have hpop : s.popReady.intFlag = s.intFlag ∧ s.popReady.status = s.status := by
    rw [popReady_eq]
    exact ⟨rfl, rfl⟩
  unfold schedule getNextThread scheduleOps
  dsimp only
  rw [List.foldl_append, ← queues_popReady, hpop.1, hpop.2]
  by_cases hflag : s.intFlag = true
  · rw [if_pos hflag, if_pos (.inl hflag)]
    rfl
  · by_cases hrunning : s.status s.current = .running
    · rw [if_neg hflag, if_pos hrunning, if_pos (.inr hrunning)]
      rfl
    · rw [if_neg hflag, if_neg hrunning, if_neg (not_or.mpr ⟨hflag, hrunning⟩)]
      by_cases hnext : s.current ≠ s.selected
      · rw [if_pos hnext, if_pos hnext]
        by_cases hnull : s.selected = 0
        · rw [if_pos hnull, if_pos hnull]
          rfl
        · rw [if_neg hnull, if_neg hnull, queues_switchComplete]
          exact congrArg (List.foldl ListOp.apply s.popReady.queues) (completeOps_congr rfl rfl _)
      · rw [if_neg hnext, if_neg hnext, queues_switchComplete]
        exact congrArg (List.foldl ListOp.apply s.popReady.queues)
          (completeOps_congr (by rw [popReady_eq]) hpop.2 _)

/-! Where a thread goes on and which call it makes decides no list operation. -/

theorem blockOps_goto (p : Place) : (s.goto p).blockOps = s.blockOps := rfl

theorem yieldOps_goto (p : Place) : (s.goto p).yieldOps = s.yieldOps := rfl

theorem yieldOps_enter (name : CallName) :
    (s.enter name).intDisable.yieldOps = s.intDisable.yieldOps := rfl

theorem downOps_enter (name : CallName) (r : SemaRef) :
    (s.enter name).intDisable.downOps r = s.intDisable.downOps r := rfl

theorem queues_yieldOff : s.yieldOff.queues = s.yieldOps.foldl ListOp.apply s.queues := by
  unfold yieldOff yieldOps requeue
  by_cases hidle : s.current ≠ s.idleThread
  · have hidle' : (s.setStatus s.current .ready).current
        ≠ (s.setStatus s.current .ready).idleThread := hidle
    rw [if_pos hidle, if_pos hidle', queues_schedule, List.foldl_cons, queues_appendReady]
    rfl
  · have hidle' : ¬ (s.setStatus s.current .ready).current
        ≠ (s.setStatus s.current .ready).idleThread := hidle
    rw [if_neg hidle, if_neg hidle', queues_schedule]
    rfl

theorem queues_threadBlock : s.threadBlock.queues = s.blockOps.foldl ListOp.apply s.queues := by
  unfold threadBlock blockOps
  by_cases hflag : s.intFlag = true
  · rw [if_pos hflag, if_pos hflag]
    rfl
  · rw [if_neg hflag, if_neg hflag, queues_schedule]
    rfl

theorem queues_semaDownLoop (r : SemaRef) (level : Bool) :
    (s.semaDownLoop r level).queues = (s.downOps r).foldl ListOp.apply s.queues := by
  unfold semaDownLoop downOps
  dsimp only
  by_cases hzero : (s.semas r).value = 0
  · have hops : ∀ p sema, (((s.record .malloc).setSema r sema).goto p).blockOps = s.blockOps := by
      intro p sema
      unfold blockOps scheduleOps nextOps completeOps selected
      rfl
    rw [if_pos hzero, if_pos hzero, queues_threadBlock, hops, List.foldl_cons, queues_goto,
      queues_setSema, queues_record]
    rfl
  · rw [if_neg hzero, if_neg hzero, queues_goto, queues_leave, queues_intSet, queues_count,
      queues_setSema, update_waiters]
    rfl

theorem queues_semaDown (r : SemaRef) :
    (s.semaDown r).queues = (s.intDisable.downOps r).foldl ListOp.apply s.queues := by
  rw [semaDown, queues_semaDownLoop, downOps_enter, queues_intDisable, queues_enter]

theorem queues_wakeWaiter (r : SemaRef) :
    (s.wakeWaiter r).queues = (s.upOps r).foldl ListOp.apply s.queues := by
  unfold wakeWaiter upOps
  cases hwaiters : (s.semas r).waiters with
  | nil => rfl
  | cons t rest =>
      have hpop : Function.update s.queues (.waiters r) rest
          = (ListOp.pop (.waiters r) : QueueOp).apply s.queues := by
        change _ = Function.update s.queues (.waiters r) (s.semas r).waiters.tail
        rw [hwaiters, List.tail_cons]
      have hcheck : ((s.setSema r ⟨(s.semas r).value, rest⟩).enter .threadUnblock).unblockCheck t
          = s.unblockCheck t := rfl
      dsimp only
      rw [hcheck]
      cases hpanic : s.unblockCheck t with
      | some p =>
          dsimp only
          rw [queues_stop, queues_enter, queues_setSema, hpop]
          rfl
      | none =>
          dsimp only
          rw [queues_leave, unblockOff, queues_intSet, queues_setStatus, queues_appendReady,
            queues_intDisable, queues_enter, queues_setSema, hpop]
          rfl

theorem queues_semaUp (r : SemaRef) :
    (s.semaUp r).queues = (s.upOps r).foldl ListOp.apply s.queues := by
  have hwake : ((s.enter .semaUp).intDisable.wakeWaiter r).queues
      = (s.upOps r).foldl ListOp.apply s.queues := by
    rw [queues_wakeWaiter, queues_intDisable, queues_enter]
    rfl
  unfold semaUp
  dsimp only
  split
  · exact hwake
  · rw [queues_leave, queues_intSet, queues_count, queues_setSema, update_waiters, hwake]

theorem queues_call {c : KernelCall} (hfixed : match c with
      | .threadCreate _ | .threadSleep _ _ | .semaInit _ _ | .lockInit _ | .returns => False
      | _ => True) (hcall : s.call c = some s') :
    s'.queues = (s.callOps c).foldl ListOp.apply s.queues := by
  cases c <;> simp only [Kernel.call, Option.ite_none_right_eq_some, Option.some.injEq] at hcall
  all_goals first | exact hfixed.elim | skip
  case intDisable =>
    subst hcall
    rfl
  case intEnable =>
    subst hcall
    rfl
  case threadYield =>
    subst hcall
    rw [threadYield, queues_yieldOff, yieldOps_goto, yieldOps_enter, queues_goto,
      queues_intDisable, queues_enter, callOps]
  case threadBlock =>
    subst hcall
    rw [queues_threadBlock, blockOps_goto, queues_goto, callOps]
  case threadUnblock t =>
    obtain ⟨-, rfl⟩ := hcall
    unfold threadUnblock
    dsimp only
    split <;> rfl
  case semaDown n =>
    obtain ⟨-, rfl⟩ := hcall
    exact queues_semaDown _
  case semaUp n =>
    obtain ⟨-, rfl⟩ := hcall
    exact queues_semaUp _
  case lockAccquire l =>
    obtain ⟨-, rfl⟩ := hcall
    unfold lockAccquire
    dsimp only
    split <;> rfl
  case lockRelease l =>
    obtain ⟨-, rfl⟩ := hcall
    unfold lockRelease
    dsimp only
    split <;> rfl

/-- The next step of a thread, behind the list operation of its place. -/
theorem queues_advance {c : KernelCall} (hfixed : s.FixedSets (.run c))
    (hin : s.inHandler s.current = false) (hadvance : s.advance c = some s') :
    s'.queues = (s.advanceOps c).foldl ListOp.apply s.queues := by
  have hplace := hfixed c rfl hin
  unfold advanceOps
  cases h : s.place s.current
  all_goals simp only [Kernel.advance, h, Option.some.injEq] at hadvance hplace
  case user => exact queues_call hplace hadvance
  all_goals subst hadvance
  case entry function => cases function <;> rfl
  case initDown => exact queues_semaDown _
  case yielded level => rw [yieldReturn, queues_goto, queues_leave, queues_intSet]; rfl
  case blocked => rfl
  case waiting r level => exact queues_semaDownLoop r level
  case unblocking t created =>
    cases created <;>
      exact queues_appendReady (s := s) t
  case accquireDown l => exact queues_semaDown _
  case setHolder l => rfl
  case clearHolder l => rfl
  case releaseUp l =>
    unfold releaseUp
    dsimp only
    split
    · exact queues_semaUp _
    · rw [queues_goto, queues_leave, queues_setInside, queues_semaUp]
  case idleStart => rfl
  case idleUp =>
    unfold idleUp
    dsimp only
    split
    · exact queues_semaUp _
    · rw [queues_goto, queues_semaUp]
  case idleLoop => rfl
  case idleBlock => rw [queues_threadBlock, blockOps_goto, queues_goto]
  case idleHlt => rfl

/-- A step over fixed sets of threads and semaphores does to the lists what the operations say. -/
theorem queues_step {a : Action} (hfixed : s.FixedSets a) (hstep : s.step a = some s') :
    s'.queues = (s.stepOps a).foldl ListOp.apply s.queues := by
  unfold step at hstep
  split at hstep
  case isTrue => exact absurd hstep (by simp)
  case isFalse =>
    cases a with
    | tick =>
        simp only [Option.ite_none_right_eq_some, Option.some.injEq] at hstep
        obtain ⟨-, rfl⟩ := hstep
        unfold threadTick stepOps
        dsimp only
        by_cases hslice : s.interrupt.tickCount ≥ TIME_SLICE
        · rw [if_pos hslice, if_pos hslice, queues_yieldOff, yieldOps_enter, queues_intDisable,
            queues_enter, queues_interrupt]
          rfl
        · rw [if_neg hslice, if_neg hslice, queues_endInterrupt, queues_interrupt]
          rfl
    | run c =>
        dsimp only at hstep
        change _ = (if s.inHandler s.current then [] else s.advanceOps c).foldl ListOp.apply
          s.queues
        split at hstep
        case isTrue hin =>
          obtain rfl := Option.some.inj hstep
          rw [if_pos hin, tickReturn, queues_endInterrupt, queues_leave, queues_intSet]
          rfl
        case isFalse hin =>
          rw [if_neg hin]
          exact queues_advance hfixed (by simpa using hin) hstep
    | heapWord st =>
        obtain rfl := Option.some.inj hstep
        rfl

end Kernel

/-! ## The steps that unlink nothing -/

namespace Kernel

section Keeps

variable (s : Kernel)

/-- A yield that neither appends the running thread nor pops another. -/
def YieldsAlone : Prop := s.current = s.idleThread ∧ s.readyThreads = []

/-- A `thread_block` that pops no thread, or panics. -/
def BlocksAlone : Prop := s.intFlag = true ∨ s.readyThreads = []

/-- A round of the loop of `sema_down` that pops no thread. -/
def DownsAlone (r : SemaRef) : Prop := (s.semas r).value = 0 → s.BlocksAlone

def CallKeeps : KernelCall → Prop
  | .threadYield => s.YieldsAlone
  | .threadBlock => s.BlocksAlone
  | .semaDown n => s.intDisable.DownsAlone (.sema n)
  | .semaUp n => (s.semas (.sema n)).waiters = []
  | _ => True

def AdvanceKeeps (call : KernelCall) : Prop :=
  match s.place s.current with
  | .user => s.CallKeeps call
  | .initDown => s.intDisable.DownsAlone .started
  | .waiting r _ => s.DownsAlone r
  | .accquireDown l => s.intDisable.DownsAlone (.lock l)
  | .releaseUp l => (s.semas (.lock l)).waiters = []
  | .idleUp => (s.semas .started).waiters = []
  | .idleBlock => s.BlocksAlone
  | _ => True

/-- The step pops no thread: it switches to none of the ready queue and wakes no waiter. -/
def KeepsElements : Action → Prop
  | .tick => s.tickCount + 1 ≥ TIME_SLICE → s.YieldsAlone
  | .run call => s.inHandler s.current = false → s.AdvanceKeeps call
  | .heapWord _ => True

end Keeps

variable {s : Kernel} {lists : QueueName → List Nat}

/-- The lists that `schedule` takes threads out of. -/
structure Scheduled (s : Kernel) (lists : QueueName → List Nat) : Prop where
  ready : lists .ready = s.readyThreads
  all : lists .all = s.allThreads

theorem scheduled_queues : s.Scheduled s.queues := ⟨rfl, rfl⟩

/-- The null pointer is in no list. -/
theorem Valid.unlinksNone_removals (h : s.Valid) (hlists : s.Scheduled lists) :
    UnlinksNone lists [(.remove .all 0 : QueueOp), .remove .ready 0] := by
  refine ⟨fun hin => ?_, fun hin => ?_, trivial⟩
  · have hmem : 0 ∈ lists .all := hin
    rw [hlists.all] at hmem
    exact (h.all 0 hmem).1 rfl
  · have hmem : 0 ∈ lists .ready := hin
    rw [hlists.ready] at hmem
    exact (h.ready 0 hmem).1 rfl

theorem Valid.unlinksNone_schedule (h : s.Valid) (hlists : s.Scheduled lists)
    (hstatus : s.status s.current ≠ .dying) :
    UnlinksNone lists s.scheduleOps ↔ s.readyThreads = [] := by
  unfold scheduleOps nextOps
  by_cases hready : s.readyThreads = []
  · refine iff_of_true ?_ hready
    rw [if_pos hready, List.nil_append]
    split
    · trivial
    · split
      · rename_i hne
        split
        · trivial
        · unfold completeOps
          rw [if_neg]
          · trivial
          · rw [setStatus_status, Function.update_of_ne hne]
            exact hstatus
      · unfold completeOps
        split
        · exact h.unlinksNone_removals hlists
        · trivial
  · refine iff_of_false ?_ hready
    rw [if_neg hready, List.singleton_append]
    intro hnone
    apply hnone.1
    change lists .ready ≠ []
    rw [hlists.ready]
    exact hready

theorem Valid.unlinksNone_yield (h : s.Valid) (hlists : s.Scheduled lists) :
    UnlinksNone lists s.yieldOps ↔ s.YieldsAlone := by
  have hstatus : (s.setStatus s.current .ready).status s.current ≠ .dying := by simp
  unfold yieldOps YieldsAlone
  by_cases hidle : s.current = s.idleThread
  · have hvalid : (s.setStatus s.current .ready).Valid := h
    have hsame : (s.setStatus s.current .ready).Scheduled lists := ⟨hlists.ready, hlists.all⟩
    rw [if_neg (not_not.mpr hidle), hvalid.unlinksNone_schedule hsame hstatus]
    exact ⟨fun hready => ⟨hidle, hready⟩, fun hboth => hboth.2⟩
  · refine iff_of_false ?_ fun hboth => hidle hboth.1
    rw [if_pos hidle]
    rintro ⟨-, hnone⟩
    have hvalid : ((s.setStatus s.current .ready).appendReady s.current).Valid :=
      Valid.appendReady (s := s.setStatus s.current .ready) h h.current
    have hafter : ((s.setStatus s.current .ready).appendReady s.current).Scheduled
        ((ListOp.append .ready s.current : QueueOp).apply lists) := by
      constructor
      · change lists .ready ++ [s.current] = _
        rw [hlists.ready]
        rfl
      · exact hlists.all
    rw [hvalid.unlinksNone_schedule hafter hstatus] at hnone
    exact List.append_ne_nil_of_right_ne_nil _ (List.cons_ne_nil _ _) hnone

theorem Valid.unlinksNone_block (h : s.Valid) (hlists : s.Scheduled lists) :
    UnlinksNone lists s.blockOps ↔ s.BlocksAlone := by
  unfold blockOps BlocksAlone
  by_cases hflag : s.intFlag = true
  · rw [if_pos hflag]
    exact iff_of_true trivial (.inl hflag)
  · have hvalid : (s.setStatus s.current .blocked).Valid := h
    have hsame : (s.setStatus s.current .blocked).Scheduled lists := ⟨hlists.ready, hlists.all⟩
    rw [if_neg hflag, hvalid.unlinksNone_schedule hsame (by simp)]
    exact ⟨.inr, fun hor => hor.resolve_left hflag⟩

theorem Valid.unlinksNone_down (h : s.Valid) (hlists : s.Scheduled lists) (r : SemaRef) :
    UnlinksNone lists (s.downOps r) ↔ s.DownsAlone r := by
  unfold downOps DownsAlone
  by_cases hzero : (s.semas r).value = 0
  · have hafter : s.Scheduled ((ListOp.append (.waiters r) s.current : QueueOp).apply lists) :=
      ⟨hlists.ready, hlists.all⟩
    rw [if_pos hzero, ← h.unlinksNone_block hafter]
    exact ⟨fun hnone _ => hnone.2, fun hnone => ⟨not_false, hnone hzero⟩⟩
  · rw [if_neg hzero]
    exact iff_of_true trivial fun heq => absurd heq hzero

theorem unlinksNone_up (r : SemaRef) :
    UnlinksNone s.queues (s.upOps r) ↔ (s.semas r).waiters = [] := by
  unfold upOps
  cases hwaiters : (s.semas r).waiters with
  | nil => exact iff_of_true trivial rfl
  | cons t rest =>
      refine iff_of_false (fun hnone => hnone.1 ?_) (List.cons_ne_nil t rest)
      change (s.semas r).waiters ≠ []
      rw [hwaiters]
      exact List.cons_ne_nil t rest

theorem Valid.unlinksNone_call (h : s.Valid) (c : KernelCall) :
    UnlinksNone s.queues (s.callOps c) ↔ s.CallKeeps c := by
  have hoff : s.intDisable.Valid := h
  cases c with
  | threadYield => exact hoff.unlinksNone_yield scheduled_queues
  | threadBlock => exact h.unlinksNone_block scheduled_queues
  | semaDown n => exact hoff.unlinksNone_down scheduled_queues _
  | semaUp n => exact unlinksNone_up _
  | _ => exact Iff.rfl

theorem Valid.unlinksNone_advance (h : s.Valid) (c : KernelCall) :
    UnlinksNone s.queues (s.advanceOps c) ↔ s.AdvanceKeeps c := by
  have hoff : s.intDisable.Valid := h
  unfold advanceOps AdvanceKeeps
  cases s.place s.current with
  | user => exact h.unlinksNone_call c
  | initDown => exact hoff.unlinksNone_down scheduled_queues _
  | waiting r level => exact h.unlinksNone_down scheduled_queues r
  | unblocking t created => exact iff_of_true ⟨not_false, trivial⟩ trivial
  | accquireDown l => exact hoff.unlinksNone_down scheduled_queues _
  | releaseUp l => exact unlinksNone_up _
  | idleUp => exact unlinksNone_up _
  | idleBlock => exact h.unlinksNone_block scheduled_queues
  | _ => exact Iff.rfl

/-- The operations of a step unlink nothing just where the condition holds. -/
theorem Valid.unlinksNone_step (h : s.Valid) (a : Action) :
    UnlinksNone s.queues (s.stepOps a) ↔ s.KeepsElements a := by
  cases a with
  | tick =>
      unfold stepOps KeepsElements
      dsimp only
      by_cases hslice : s.interrupt.tickCount ≥ TIME_SLICE
      · have hvalid : s.interrupt.Valid := h
        rw [if_pos hslice, hvalid.unlinksNone_yield ⟨rfl, rfl⟩]
        exact ⟨fun halone _ => halone, fun halone => halone hslice⟩
      · rw [if_neg hslice]
        exact iff_of_true trivial fun hge => absurd hge hslice
  | run c =>
      unfold stepOps KeepsElements
      dsimp only
      by_cases hin : s.inHandler s.current = true
      · rw [if_pos hin]
        exact iff_of_true trivial fun hout => absurd (hin.symm.trans hout) nofun
      · rw [if_neg hin, h.unlinksNone_advance c]
        exact ⟨fun hkeeps _ => hkeeps, fun hkeeps => hkeeps (by simpa using hin)⟩
  | heapWord st => exact Iff.rfl

end Kernel

/-! ## Runs -/

/-- The kernel with the elements of its lists. -/
structure ElementRun where
  kernel : Kernel
  elements : Elements QueueName Nat

namespace ElementRun

/-- The elements are those of the kernel's lists. -/
structure Accounts (r : ElementRun) : Prop where
  reach : kernelMachine.Reachable r.kernel
  lists : r.elements.lists = r.kernel.queues
  proper : r.elements.Proper

/-- The allocated elements are exactly those that are linked, so that they are as many as the
lists have entries. -/
def ElementsExact (r : ElementRun) : Prop :=
  r.elements.Exact ∧ ∀ names : List QueueName, names.Nodup →
    (∀ q, q ∉ names → r.kernel.queues q = []) →
      r.elements.allocated = (names.flatMap r.kernel.queues).length

end ElementRun

/-- Runs over fixed sets of threads and semaphores, from any state of the kernel in which the
elements are exact. -/
def elementMachine : Machine ElementRun Action where
  start r := r.Accounts ∧ r.elements.Exact
  step r a r' := r.kernel.FixedSets a ∧ r.kernel.step a = some r'.kernel ∧
    r'.elements = r.elements.run (r.kernel.stepOps a)

namespace ElementRun

variable {r r' : ElementRun} {a : Action}

theorem Accounts.step (h : r.Accounts) (hstep : elementMachine.step r a r') : r'.Accounts := by
  obtain ⟨hfixed, hkernel, helements⟩ := hstep
  constructor
  · exact .step h.reach trivial hkernel
  · rw [helements, Elements.lists_run, h.lists, Kernel.queues_step hfixed hkernel]
  · rw [helements]
    exact h.proper.run

theorem accounts_of_reach {allowed : ElementRun → Action → Prop}
    (run : elementMachine.Reach allowed r) : r.Accounts := by
  apply run.invariant
  · exact fun _ h => h.1
  · exact fun _ _ _ h _ hstep => h.step hstep

theorem Accounts.elementsExact_iff (h : r.Accounts) : r.ElementsExact ↔ r.elements.Exact := by
  refine ⟨And.left, fun hexact => ⟨hexact, ?_⟩⟩
  intro names hnames hcover
  rw [← h.lists] at hcover ⊢
  exact hexact.allocated_eq_length h.proper hnames hcover

/-- A step leaves exact elements exact just where it pops no thread. -/
theorem Accounts.step_exact_iff (h : r.Accounts) (hexact : r.ElementsExact)
    (hstep : elementMachine.step r a r') : r'.ElementsExact ↔ r.kernel.KeepsElements a := by
  rw [(h.step hstep).elementsExact_iff, hstep.2.2, Elements.exact_run_iff h.proper hexact.1,
    h.lists]
  exact (valid_of_reach h.reach).unlinksNone_step a

theorem Accounts.not_exact_step (h : r.Accounts) (hexact : ¬ r.ElementsExact)
    (hstep : elementMachine.step r a r') : ¬ r'.ElementsExact := by
  rw [h.elementsExact_iff] at hexact
  rw [(h.step hstep).elementsExact_iff, hstep.2.2]
  exact h.proper.not_exact_run hexact

end ElementRun

/-- In a run in which no step pops a thread, the elements are exact in every state; a step that
pops one loses its element, and what is lost stays lost. -/
theorem elements_exact_iff_keepsElements {r : ElementRun} (run : elementMachine.Reachable r) :
    (elementMachine.Reach (fun r a => r.kernel.KeepsElements a) r → r.ElementsExact) ∧
    ∀ a r', elementMachine.step r a r' →
      (r'.ElementsExact ↔ r.ElementsExact ∧ r.kernel.KeepsElements a) := by
  constructor
  · intro guarded
    have hinv : r.Accounts ∧ r.ElementsExact := by
      apply guarded.invariant
      · exact fun r h => ⟨h.1, h.1.elementsExact_iff.mpr h.2⟩
      · rintro r a r' ⟨haccounts, hexact⟩ hkeeps hstep
        exact ⟨haccounts.step hstep, (haccounts.step_exact_iff hexact hstep).mpr hkeeps⟩
    exact hinv.2
  · intro a r' hstep
    have haccounts := ElementRun.accounts_of_reach run
    by_cases hexact : r.ElementsExact
    · rw [haccounts.step_exact_iff hexact hstep]
      exact ⟨fun hkeeps => ⟨hexact, hkeeps⟩, fun hboth => hboth.2⟩
    · exact iff_of_false (haccounts.not_exact_step hexact hstep) fun hboth => hexact hboth.1

/-! ## The first steps -/

/-- No element has been allocated. -/
def noElements : Elements QueueName Nat := ⟨fun _ => [], 0⟩

theorem noElements_proper : noElements.Proper := by
  constructor
  · intro q e he
    exact absurd he List.not_mem_nil
  · exact fun _ => List.nodup_nil
  · intro q q' e he
    exact absurd he List.not_mem_nil

theorem noElements_exact : noElements.Exact := by
  intro a
  refine iff_of_false (Nat.not_lt_zero a) ?_
  rintro ⟨q, e, he, -⟩
  exact List.not_mem_nil he

/-- What `thread_init` has appended. -/
def startOps : List QueueOp := [.append .all 1, .append .all 2, .append .ready 2]

theorem startKernel_elements : elementMachine.start ⟨startKernel, noElements.run startOps⟩ := by
  refine ⟨⟨.start startKernel_start, ?_, noElements_proper.run⟩, ?_⟩
  · rw [Elements.lists_run]
    funext q
    cases q <;> rfl
  · rw [Elements.exact_run_iff noElements_proper noElements_exact]
    exact ⟨not_false, not_false, not_false, trivial⟩

/-- The kernel thread waits for the idle thread: it becomes a waiter, and the idle thread is popped
from the ready queue. -/
theorem elements_not_exact :
    ¬ ∀ r, elementMachine.Reachable r → r.ElementsExact := by
  intro h
  have hfields : (startKernel.step (.run .intEnable)).isSome = true := by decide
  obtain ⟨s, hs⟩ := Option.isSome_iff_exists.mp hfields
  have hfixed : startKernel.FixedSets (.run .intEnable) := fun _ _ _ => trivial
  have hstart := startKernel_elements
  have hstep : elementMachine.step ⟨startKernel, noElements.run startOps⟩ (.run .intEnable)
      ⟨s, (noElements.run startOps).run (startKernel.stepOps (.run .intEnable))⟩ :=
    ⟨hfixed, hs, rfl⟩
  have hexact := h _ (.step (.start hstart) trivial hstep)
  rw [hstart.1.step_exact_iff (h _ (.start hstart)) hstep] at hexact
  rcases hexact rfl rfl with hflag | hready
  · exact absurd hflag nofun
  · exact absurd hready nofun

/-- The three threads that `blockedThread` leaves in `all_threads`. -/
def threeOps : List QueueOp := [.append .all 1, .append .all 2, .append .all 3]

/-- The kernel thread has checked that it can unblock a third thread, which is in no queue. -/
theorem unblocking_elements : ∃ s, elementMachine.start ⟨s, noElements.run threeOps⟩ ∧
    s.place s.current = .unblocking 3 false ∧ s.inHandler s.current = false ∧
    s.outcome = .running := by
  have hfields : ((startKernel.steps (fun _ _ => true)
      (blockedThread ++ [.run (.threadUnblock 3)])).map fun s =>
        (s.place s.current, s.inHandler s.current, s.outcome)) =
          some (.unblocking 3 false, false, .running) := by
    decide
  have hqueues : ∀ q, (startKernel.steps (fun _ _ => true)
      (blockedThread ++ [.run (.threadUnblock 3)])).map (fun s => s.queues q) =
        some ((noElements.run threeOps).lists q) := by
    rintro (_ | _ | _ | r)
    case waiters => cases r <;> rfl
    all_goals rfl
  obtain ⟨s, hsteps, hs⟩ := Option.map_eq_some_iff.mp hfields
  simp only [Prod.mk.injEq] at hs
  refine ⟨s, ⟨⟨?_, ?_, noElements_proper.run⟩, ?_⟩, hs⟩
  · exact reach_steps (fun _ _ _ => trivial) (fun _ _ _ _ h => h) (.start startKernel_start) hsteps
  · funext q
    have hq := hqueues q
    rw [hsteps] at hq
    exact (Option.some.inj hq).symm
  · rw [Elements.exact_run_iff noElements_proper noElements_exact]
    exact ⟨not_false, not_false, not_false, trivial⟩

/-- `thread_unblock` pops no thread: it appends one to the ready queue. -/
theorem elements_exact_after_unblock : ∃ r r', elementMachine.step r (.run .intEnable) r' ∧
    r.kernel.stepOps (.run .intEnable) = [.append .ready 3] ∧
    r.ElementsExact ∧ r'.ElementsExact := by
  obtain ⟨s, hstart, hplace, hin, hrun⟩ := unblocking_elements
  have hfixed : s.FixedSets (.run .intEnable) := by
    intro _ _ _
    simp only [hplace]
  have hops : s.stepOps (.run .intEnable) = [.append .ready 3] := by
    simp only [Kernel.stepOps, hin, Bool.false_eq_true, if_false, Kernel.advanceOps, hplace]
  have hkeeps : s.KeepsElements (.run .intEnable) := by
    intro _
    simp only [Kernel.AdvanceKeeps, hplace]
  have hnext : s.step (.run .intEnable) = some (s.unblockReturn 3 false) := by
    simp [Kernel.step, hrun, hin, Kernel.advance, hplace]
  have hstep : elementMachine.step ⟨s, noElements.run threeOps⟩ (.run .intEnable)
      ⟨s.unblockReturn 3 false, (noElements.run threeOps).run (s.stepOps (.run .intEnable))⟩ :=
    ⟨hfixed, hnext, rfl⟩
  obtain ⟨hexact, hafter⟩ := elements_exact_iff_keepsElements (.start hstart)
  have hbefore := hexact (.start hstart)
  exact ⟨_, _, hstep, hops, hbefore, (hafter _ _ hstep).mpr ⟨hbefore, hkeeps⟩⟩

end NickOS3.Thread
