import NickOS3.Thread.Places

/-!
# What a step does to the scheduler

Who runs is decided by few fields: the running thread, the statuses and the queues. A step
leaves them alone, changes one thing, or calls `schedule`.
-/

namespace NickOS3.Thread

open Foundation

/-- The fields that `schedule` works on, and who has been created and killed. -/
structure SchedView where
  current : Nat
  status : Nat → ThreadStatus
  readyThreads : List Nat
  allThreads : List Nat
  idleThread : Nat
  numThreads : Nat
  created : List Nat
  killed : List Nat

namespace SchedView

variable (v : SchedView)

/-- The thread that `get_next_thread` returns. -/
def selected : Nat := v.readyThreads.head?.getD v.idleThread

/-- `thread_yield` in front of `schedule`. -/
def requeue : SchedView :=
  { v with
    status := Function.update v.status v.current .ready
    readyThreads :=
      if v.current ≠ v.idleThread then v.readyThreads ++ [v.current] else v.readyThreads }

@[simp] theorem requeue_status :
    v.requeue.status = Function.update v.status v.current .ready := rfl

/-- The queue is popped, and `next` runs. -/
def dispatch (next : Nat) : SchedView :=
  { v with
    current := next
    status := Function.update v.status next .running
    readyThreads := v.readyThreads.tail }

/-- `switch_complete` kills a thread that is dying. -/
def reap (prev : Nat) : SchedView :=
  if v.status prev = .dying then
    { v with
      allThreads := v.allThreads.erase prev
      readyThreads := v.readyThreads.erase prev
      killed := prev :: v.killed }
  else v

/-- `schedule` hands the thread that it switches away from to `switch_complete`, and null when
it goes on in the same thread. -/
def schedule : SchedView :=
  (v.dispatch v.selected).reap (if v.selected = v.current then 0 else v.current)

end SchedView

namespace Kernel

variable (s : Kernel)

/-- The threads that `thread_kill` was called for. -/
def killed : List Nat := s.kills.map (·.thread)

def sched : SchedView :=
  ⟨s.current, s.status, s.readyThreads, s.allThreads, s.idleThread, s.numThreads, s.created,
    s.killed⟩

/-- The step is the running thread's own, outside of the timer's handler. -/
def Acts (a : Action) : Prop := s.inHandler s.current = false ∧ ∃ call, a = .run call

/-- The thread that the step's `thread_unblock` or `sema_up` appends to the ready queue. -/
def unblocks : Action → Option Nat
  | .run c =>
      if s.inHandler s.current then none
      else
        match s.place s.current, c with
        | .unblocking t _, _ => some t
        | .user, .semaUp n => (s.semas (.sema n)).waiters.head?
        | .releaseUp l, _ => (s.semas (.lock l)).waiters.head?
        | .idleUp, _ => (s.semas .started).waiters.head?
        | _, _ => none
  | _ => none

/-- The step is a `thread_yield` of the running thread, its own or a tick's. -/
def yields : Action → Bool
  | .tick => decide (s.tickCount + 1 ≥ TIME_SLICE)
  | .run .threadYield => !s.inHandler s.current && decide (s.place s.current = .user)
  | _ => false

/-- What a step does to the scheduler. In front of a call of `schedule` the kernel is as it
was but for the step's own work outside of the scheduler. -/
inductive Effect (a : Action) : Kernel → Prop
  | panics {s' : Kernel} (p : Panic) (hpanic : s'.outcome = .panic p) : Effect a s'
  | overruns {s' : Kernel} (hplace : s.place s.current = .dead) (hover : s'.outcome = .ranOff) :
      Effect a s'
  | quiet {s' : Kernel} (hrun : s'.outcome = .running) (hsched : s'.sched = s.sched)
      (hplace : s.place s.current = .dying → s'.place s.current = .dying) : Effect a s'
  | word {s' : Kernel} (st : ThreadStatus) (hrun : s'.outcome = .running)
      (hsched : s'.sched = { s.sched with status := Function.update s.status 0 st })
      (hplace : s'.place = s.place) : Effect a s'
  /-- The function of a thread returns. -/
  | dies {s' : Kernel} (hrun : s'.outcome = .running)
      (hplace : s.place s.current = .user) (hplace' : s'.place s.current = .dying)
      (hsched : s'.sched =
        { s.sched with status := Function.update s.status s.current .dying }) : Effect a s'
  | creates {s' : Kernel} (hrun : s'.outcome = .running) (hplace : s.place s.current ≠ .dying)
      (hplace' : s'.place s.current = .createAppend (s.numThreads + 1))
      (hsched : s'.sched = { s.sched with
        numThreads := s.numThreads + 1
        status := Function.update s.status (s.numThreads + 1) .blocked }) : Effect a s'
  | appends {s' : Kernel} (new : Nat) (hrun : s'.outcome = .running)
      (hplace : s.place s.current = .createAppend new)
      (hplace' : s'.place s.current = .createUnblock new)
      (hsched : s'.sched = { s.sched with
        allThreads := s.allThreads ++ [new]
        created := new :: s.created }) : Effect a s'
  /-- `thread_unblock` on `t`, which was checked in this section or before it. -/
  | wakes {s' : Kernel} (t : Nat) (hrun : s'.outcome = .running)
      (hplace : s.place s.current ≠ .dying)
      (hfrom : s.Acts a ∧ (∃ created, s.place s.current = .unblocking t created) ∨
        s.status t = .blocked ∧
          ∃ r ∈ s.initialised, (s.semas r).waiters = t :: (s'.semas r).waiters)
      (hunblocks : s.unblocks a = some t)
      (hsched : s'.sched = { s.sched with
        status := Function.update s.status t .ready
        readyThreads := s.readyThreads ++ [t] }) : Effect a s'
  | sleeps {s' : Kernel} (t : Nat) (hrun : s'.outcome = .running) (hact : s.Acts a)
      (hplace : s.place s.current = .sleeping t)
      (hsched : s'.sched = { s.sched with
        status := Function.update s.status t .blocked
        readyThreads := s.readyThreads.erase t }) : Effect a s'
  | idles {s' : Kernel} (hrun : s'.outcome = .running) (hplace : s.place s.current = .idleStart)
      (hsched : s'.sched = { s.sched with idleThread := s.current }) : Effect a s'
  | yields (u : Kernel) (hrun : u.outcome = .running) (hflag : u.intFlag = false)
      (hplace : s.place s.current = .dying → u.place s.current = .dying ∧ a = .tick ∧
        s.tickCount + 1 ≥ TIME_SLICE)
      (hyields : s.yields a = true) (hsched : u.sched = s.sched) : Effect a u.yieldOff
  | blocks (u : Kernel) (hrun : u.outcome = .running) (hflag : u.intFlag = false)
      (hplace : s.place s.current ≠ .dying) (hbefore : (s.place s.current).beforeIdle = false)
      (hsched : u.sched = s.sched) : Effect a (u.setStatus u.current .blocked).schedule
  | ends (u : Kernel) (hrun : u.outcome = .running) (hflag : u.intFlag = false)
      (hplace : s.place s.current = .dying) (hplace' : u.place s.current = .dead)
      (hsched : u.sched = s.sched) : Effect a u.schedule

variable {s} {s' u : Kernel} {a : Action}

/-! Where a thread goes on, the calls it is in and its locks are no matter of the scheduler. -/

theorem sched_goto (p : Place) : (u.goto p).sched = u.sched := rfl

theorem sched_leave : u.leave.sched = u.sched := rfl

theorem sched_assignHolder (l t : Nat) : (u.assignHolder l t).sched = u.sched := rfl

theorem sched_setInside (l : Nat) (ts : List Nat) : (u.setInside l ts).sched = u.sched := rfl

theorem sched_intSet (level : Bool) : (u.intSet level).sched = u.sched := rfl

theorem sched_switchComplete (prev : Nat) :
    (u.switchComplete prev).sched =
      ({ u.sched with status := Function.update u.status u.current .running }).reap prev := by
  unfold switchComplete SchedView.reap
  dsimp only [sched]
  split
  case isTrue hdying =>
    rw [if_pos (by simpa using hdying)]
    rfl
  case isFalse hdying =>
    rw [if_neg (by simpa using hdying)]
    rfl

theorem sched_schedule (hrun : u.schedule.outcome = .running) :
    u.schedule.sched = u.sched.schedule := by
  obtain ⟨-, -, ⟨hsame, heq⟩ | ⟨hne, -, heq⟩⟩ := u.schedule_running hrun
  · have hsame' : u.sched.selected = u.sched.current := hsame
    rw [heq, sched_switchComplete, popReady_eq, SchedView.schedule, if_pos hsame', hsame']
    rfl
  · have hne' : u.sched.selected ≠ u.sched.current := hne
    rw [heq, sched_switchComplete, popReady_eq, SchedView.schedule, if_neg hne']
    rfl

theorem sched_requeue : (u.setStatus u.current .ready).requeue.sched = u.sched.requeue := by
  by_cases hidle : u.current = u.idleThread
  · simp [requeue, SchedView.requeue, sched, hidle, killed]
    rfl
  · simp [requeue, SchedView.requeue, sched, hidle, killed]
    rfl

theorem Effect.threadBlock (hrun : u.outcome = .running) (hplace : s.place s.current ≠ .dying)
    (hbefore : (s.place s.current).beforeIdle = false) (hsched : u.sched = s.sched) :
    s.Effect a u.threadBlock := by
  unfold Kernel.threadBlock
  split
  case isTrue => exact .panics _ rfl
  case isFalse hflag => exact .blocks u hrun (by simpa using hflag) hplace hbefore hsched

theorem Effect.semaDownLoop {r : SemaRef} {level : Bool} (hrun : u.outcome = .running)
    (hplace : s.place s.current ≠ .dying) (hbefore : (s.place s.current).beforeIdle = false)
    (hsched : u.sched = s.sched) : s.Effect a (u.semaDownLoop r level) := by
  unfold Kernel.semaDownLoop
  dsimp only
  split
  case isTrue => exact .threadBlock hrun hplace hbefore hsched
  case isFalse => exact .quiet hrun hsched fun h => absurd h hplace

theorem Effect.semaDown {r : SemaRef} (hrun : s.outcome = .running)
    (hplace : s.place s.current ≠ .dying) (hbefore : (s.place s.current).beforeIdle = false) :
    s.Effect a (s.semaDown r) := by
  unfold Kernel.semaDown
  exact Effect.semaDownLoop (u := (s.enter .semaDown).intDisable) hrun hplace hbefore rfl

theorem Effect.threadUnblock {t : Nat} {created : Bool} (hrun : s.outcome = .running)
    (hplace : s.place s.current ≠ .dying) : s.Effect a (s.threadUnblock t created) := by
  unfold Kernel.threadUnblock
  dsimp only
  split
  case h_1 => exact .panics _ rfl
  case h_2 => exact .quiet hrun rfl fun h => absurd h hplace

/-- `sema_up`, at the end of a step or with more work outside of the scheduler. -/
theorem Effect.semaUpThen {r : SemaRef} {f : Kernel → Kernel} (hrun : s.outcome = .running)
    (hplace : s.place s.current ≠ .dying) (hr : r ∈ s.initialised)
    (hunblocks : s.unblocks a = (s.semas r).waiters.head?)
    (houtcome : ∀ u, (f u).outcome = u.outcome) (hsched : ∀ u, (f u).sched = u.sched)
    (hsemas : ∀ u, (f u).semas = u.semas) :
    s.Effect a (if (s.semaUp r).outcome ≠ .running then s.semaUp r else f (s.semaUp r)) := by
  cases hwaiters : (s.semas r).waiters with
  | nil =>
      rw [semaUp_empty hwaiters hrun, if_neg (by simpa using hrun)]
      refine .quiet ?_ ?_ fun h => absurd h hplace
      · rw [houtcome]
        exact hrun
      · rw [hsched]
        rfl
  | cons t rest =>
      cases hcheck : s.unblockCheck t with
      | none =>
          rw [semaUp_wake hwaiters hcheck hrun, if_neg (by simpa using hrun)]
          refine .wakes t ?_ hplace (.inr ⟨(unblockCheck_eq_none.mp hcheck).2, r, hr, ?_⟩)
            (by rw [hunblocks, hwaiters]; rfl) ?_
          · rw [houtcome]
            exact hrun
          · simp [hsemas, hwaiters]
          · rw [hsched]
            rfl
      | some p =>
          rw [semaUp_stop hwaiters hcheck, if_pos (by simp)]
          exact .panics p rfl

theorem Effect.semaUp {r : SemaRef} (hrun : s.outcome = .running)
    (hplace : s.place s.current ≠ .dying) (hr : r ∈ s.initialised)
    (hunblocks : s.unblocks a = (s.semas r).waiters.head?) : s.Effect a (s.semaUp r) := by
  have h := Effect.semaUpThen (a := a) (f := id) hrun hplace hr hunblocks (fun _ => rfl)
    (fun _ => rfl) fun _ => rfl
  simpa using h

/-- `sema_init` and `lock_init` work outside of the scheduler. -/
theorem sched_semaInit (r : SemaRef) (value : Nat) : (s.semaInit r value).sched = s.sched := by
  simp [semaInit, sched, killed, setInitialised, count, record, setSema]

theorem sched_lockInit (l : Nat) : (s.lockInit l).sched = s.sched := by
  rw [lockInit, sched_semaInit]
  rfl

theorem call_effect {c : KernelCall} (hrun : s.outcome = .running)
    (hin : s.inHandler s.current = false) (hplace : s.place s.current = .user)
    (hcall : s.call c = some s') : s.Effect (.run c) s' := by
  have hdying : s.place s.current ≠ .dying := by
    rw [hplace]
    exact nofun
  have hbefore : (s.place s.current).beforeIdle = false := by
    rw [hplace]
    rfl
  cases c <;> simp only [Kernel.call, Option.ite_none_right_eq_some, Option.some.injEq] at hcall
  all_goals first | obtain rfl := hcall | obtain ⟨hknown, rfl⟩ := hcall
  case threadYield =>
    exact Effect.yields ((s.enter .threadYield).intDisable.goto (.yielded s.intFlag)) hrun rfl
      (fun h => absurd h hdying) (by simp [yields, hin, hplace]) rfl
  case threadBlock => exact .threadBlock hrun hdying hbefore rfl
  case threadUnblock t => exact .threadUnblock hrun hdying
  case threadCreate null =>
    refine .creates hrun hdying (by simp [threadCreate]) ?_
    rw [threadCreate, sched_goto, sched_intSet]
    rfl
  case threadSleep t ticks =>
    unfold threadSleep
    split
    case isTrue => exact .quiet hrun rfl fun h => absurd h hdying
    case isFalse =>
      split
      case isTrue => exact .panics _ rfl
      case isFalse => exact .quiet hrun rfl fun h => absurd h hdying
  case semaDown n => exact .semaDown hrun hdying hbefore
  case semaUp n => exact .semaUp hrun hdying hknown (by simp [unblocks, hin, hplace])
  case lockAccquire l =>
    unfold lockAccquire
    dsimp only
    split
    case isTrue => exact .panics _ rfl
    case isFalse => exact .quiet hrun rfl fun h => absurd h hdying
  case lockRelease l =>
    unfold lockRelease
    dsimp only
    split
    case isTrue => exact .panics _ rfl
    case isFalse => exact .quiet hrun rfl fun h => absurd h hdying
  case returns => exact .dies hrun hplace (by simp [runReturn]) rfl
  case semaInit n value =>
    exact .quiet (by simpa [semaInit] using hrun) (sched_semaInit _ _) fun h => absurd h hdying
  case lockInit l =>
    exact .quiet (by simpa [lockInit, semaInit] using hrun) (sched_lockInit _)
      fun h => absurd h hdying
  all_goals exact .quiet hrun rfl fun h => absurd h hdying

theorem advance_effect {c : KernelCall} (hrun : s.outcome = .running)
    (hsema : ∀ r, (s.place s.current).sema = some r → r ∈ s.initialised)
    (hstarted : .started ∈ s.initialised) (hin : s.inHandler s.current = false)
    (hadvance : s.advance c = some s') : s.Effect (.run c) s' := by
  have hact : s.Acts (.run c) := ⟨hin, c, rfl⟩
  cases hplace : s.place s.current
  all_goals
    simp only [Kernel.advance, hplace, Option.some.injEq] at hadvance
    rw [hplace] at hsema
  case user => exact call_effect hrun hin hplace hadvance
  all_goals subst hadvance
  case dying => exact Effect.ends (s.intDisable.goto .dead) hrun rfl hplace (by simp) rfl
  all_goals
    have hdying : s.place s.current ≠ .dying := by
      rw [hplace]
      simp
  case entry function =>
    cases function with
    | null => exact .panics .nullFunction rfl
    | idle | code => exact .quiet hrun rfl fun h => absurd h hdying
  case dead => exact .overruns hplace rfl
  case initDown => exact .semaDown hrun hdying (by rw [hplace]; rfl)
  case waiting r level => exact .semaDownLoop hrun hdying (by rw [hplace]; rfl) rfl
  case unblocking t created =>
    have hunblocks : s.unblocks (.run c) = some t := by simp [unblocks, hin, hplace]
    cases created
    all_goals exact .wakes t hrun hdying (.inl ⟨hact, _, hplace⟩) hunblocks rfl
  case createAppend new => exact .appends new hrun hplace (by simp [createAppend]) rfl
  case createUnblock new => exact .threadUnblock hrun hdying
  case sleeping t => exact .sleeps t hrun hact hplace rfl
  case accquireDown l => exact .semaDown hrun hdying (by rw [hplace]; rfl)
  case setHolder l =>
    refine .quiet hrun ?_ fun h => absurd h hdying
    rw [Kernel.setHolder, sched_goto, sched_leave, sched_setInside, sched_assignHolder]
  case releaseUp l =>
    unfold releaseUp
    exact Effect.semaUpThen (f := fun u =>
      (u.setInside l ((u.inside l).erase u.current)).leave.goto .user) hrun hdying
      (hsema (.lock l) rfl) (by simp [unblocks, hin, hplace]) (fun _ => rfl)
      (fun u => by rw [sched_goto, sched_leave, sched_setInside]) (fun _ => rfl)
  case idleStart => exact .idles hrun hplace rfl
  case idleUp =>
    exact Effect.semaUpThen (f := fun u => u.goto .idleLoop) hrun hdying hstarted
      (by simp [unblocks, hin, hplace]) (fun _ => rfl) (fun _ => rfl) (fun _ => rfl)
  case idleBlock => exact .threadBlock hrun hdying (by rw [hplace]; rfl) rfl
  all_goals exact .quiet hrun rfl fun h => absurd h hdying

theorem step_effect (hv : s.Valid) (hprep : s.Prepared)
    (hstep : s.step a = some s') : s.Effect a s' := by
  apply step_cases hstep
  · intro htick hrun _
    unfold threadTick
    dsimp only
    split
    case isTrue hslice =>
      exact Effect.yields (s.interrupt.enter .threadYield).intDisable hrun rfl
        (fun h => ⟨h, htick, hslice⟩) (by subst htick; exact decide_eq_true hslice) rfl
    case isFalse => exact .quiet hrun rfl id
  · exact fun hrun _ => .quiet hrun rfl id
  · rintro c s' rfl hrun hin hadvance
    exact advance_effect hrun (hprep.used _ hv.current.1 hv.current.2) hprep.started hin hadvance
  · exact fun hrun st => .word st hrun rfl rfl

end Kernel

end NickOS3.Thread
