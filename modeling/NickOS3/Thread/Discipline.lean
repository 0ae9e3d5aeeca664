import NickOS3.Thread.Levels
import NickOS3.Thread.Reclaim
import NickOS3.Thread.Semaphores

/-!
# Disciplined threads

A disciplined thread calls `thread_block` with interrupts off, unblocks blocked threads, puts
none of the finished ones to sleep, and so on. When all threads are disciplined and no tick ends
the time slice of a dying one, the checks of the kernel never fail.
-/

namespace NickOS3.Thread

open Foundation

/-! ## Steps behind which the kernel goes on -/

namespace Kernel

section Stops

variable (s : Kernel)

/-- `thread_block` panics, or nobody can be selected. -/
def BlockStops : Prop := s.intFlag = true ∨ s.selected = 0

def DownStops (r : SemaRef) : Prop := (s.semas r).value = 0 ∧ s.BlockStops

/-- The checks of `thread_unblock` fail for the first waiter. -/
def UpStops (r : SemaRef) : Prop :=
  match (s.semas r).waiters with
  | [] => False
  | t :: _ => (s.unblockCheck t).isSome = true

def CallStops : KernelCall → Prop
  | .threadBlock => s.BlockStops
  | .threadUnblock t => (s.unblockCheck t).isSome = true
  | .threadSleep t ticks => ticks ≠ 0 ∧ ¬ s.isThread t
  | .semaDown n => s.intDisable.DownStops (.sema n)
  | .semaUp n => s.UpStops (.sema n)
  | .lockAccquire l => s.holder l = s.current
  | .lockRelease l => s.holder l ≠ s.current
  | _ => False

def AdvanceStops (call : KernelCall) : Prop :=
  match s.place s.current with
  | .entry function => function = .null
  | .user => s.CallStops call
  | .dying => s.status s.current = .running ∨ s.selected = 0
  | .dead => True
  | .initDown => s.intDisable.DownStops .started
  | .waiting r _ => s.DownStops r
  | .createUnblock new => (s.unblockCheck new).isSome = true
  | .accquireDown l => s.intDisable.DownStops (.lock l)
  | .releaseUp l => s.UpStops (.lock l)
  | .idleUp => s.UpStops .started
  | .idleBlock => s.BlockStops
  | _ => False

/-- The step panics, switches to a null thread or runs off the end of `run`. -/
def Stops : Action → Prop
  | .run call => s.inHandler s.current = false ∧ s.AdvanceStops call
  | _ => False

end Stops

variable {s s' : Kernel} {t : Nat} {r : SemaRef}

theorem stop_outcome_ne (p : Panic) : (s.stop p).outcome ≠ .running := by
  simp

theorem schedule_runs_iff (hrun : s.outcome = .running) (hcurrent : s.current ≠ 0) :
    s.schedule.outcome = .running ↔
      s.intFlag = false ∧ s.status s.current ≠ .running ∧ s.selected ≠ 0 := by
  constructor
  · intro h
    obtain ⟨hflag, hstatus, ⟨hsame, -⟩ | ⟨-, hselected, -⟩⟩ := s.schedule_running h
    · exact ⟨hflag, hstatus, hsame ▸ hcurrent⟩
    · exact ⟨hflag, hstatus, hselected⟩
  · rintro ⟨hflag, hstatus, hselected⟩
    rcases s.schedule_outcome hflag with heq | ⟨-, hrunning⟩ | ⟨-, hnull, -⟩
    · exact heq.trans hrun
    · exact absurd hrunning hstatus
    · exact absurd hnull hselected

/-- `thread_yield` always finds a thread: its own at least. -/
theorem Valid.requeue_selected (h : s.Valid) : s.requeue.selected ≠ 0 := by
  unfold Kernel.requeue Kernel.selected
  by_cases hidle : s.current ≠ s.idleThread
  · rw [if_pos hidle, appendReady_readyThreads]
    cases hready : s.readyThreads with
    | nil => exact h.current.1
    | cons t rest => exact (h.ready t (by simp [hready])).1
  · rw [if_neg hidle]
    cases hready : s.readyThreads with
    | nil => exact not_not.mp hidle ▸ h.current.1
    | cons t rest => exact (h.ready t (by simp [hready])).1

theorem Valid.yieldOff_runs (h : s.Valid) (hrun : s.outcome = .running)
    (hflag : s.intFlag = false) : s.yieldOff.outcome = .running := by
  have hvalid : (s.setStatus s.current .ready).Valid := h
  unfold Kernel.yieldOff
  rw [schedule_runs_iff]
  · refine ⟨?_, ?_, hvalid.requeue_selected⟩
    · rw [requeue_intFlag]
      exact hflag
    · rw [requeue_current, requeue_status, setStatus_current, setStatus_status,
        Function.update_self]
      exact nofun
  · rw [requeue_outcome]
    exact hrun
  · rw [requeue_current]
    exact h.current.1

theorem threadBlock_runs_iff (hrun : s.outcome = .running) (hcurrent : s.current ≠ 0) :
    s.threadBlock.outcome = .running ↔ ¬ s.BlockStops := by
  unfold threadBlock BlockStops
  by_cases hflag : s.intFlag = true
  · rw [if_pos hflag]
    exact iff_of_false (stop_outcome_ne _) fun h => h (.inl hflag)
  · have hselected : (s.setStatus s.current .blocked).selected = s.selected := rfl
    have hstatus : (s.setStatus s.current .blocked).status s.current ≠ .running := by simp
    rw [if_neg hflag, schedule_runs_iff (s := s.setStatus s.current .blocked) hrun hcurrent,
      hselected, not_or]
    exact ⟨fun h => ⟨hflag, h.2.2⟩, fun h => ⟨by simpa using hflag, hstatus, h.2⟩⟩

theorem semaDownLoop_runs_iff {level : Bool} (hrun : s.outcome = .running)
    (hcurrent : s.current ≠ 0) :
    (s.semaDownLoop r level).outcome = .running ↔ ¬ s.DownStops r := by
  unfold semaDownLoop DownStops
  dsimp only
  by_cases hzero : (s.semas r).value = 0
  · have hblock := threadBlock_runs_iff (s := ((s.record .malloc).setSema r
      { s.semas r with waiters := (s.semas r).waiters ++ [s.current] }).goto (.waiting r level))
      hrun hcurrent
    rw [if_pos hzero, hblock]
    exact ⟨fun h hboth => h hboth.2, fun h hstops => h ⟨hzero, hstops⟩⟩
  · rw [if_neg hzero]
    exact iff_of_true hrun fun h => hzero h.1

theorem semaDown_runs_iff (hrun : s.outcome = .running) (hcurrent : s.current ≠ 0) :
    (s.semaDown r).outcome = .running ↔ ¬ s.intDisable.DownStops r :=
  semaDownLoop_runs_iff (s := (s.enter .semaDown).intDisable) hrun hcurrent

theorem semaUp_runs_iff (hrun : s.outcome = .running) :
    (s.semaUp r).outcome = .running ↔ ¬ s.UpStops r := by
  unfold UpStops
  cases hwaiters : (s.semas r).waiters with
  | nil =>
      rw [semaUp_empty hwaiters hrun]
      exact iff_of_true hrun fun h => h
  | cons t rest =>
      cases hcheck : s.unblockCheck t with
      | none =>
          rw [semaUp_wake hwaiters hcheck hrun]
          refine iff_of_true hrun fun h => ?_
          exact absurd ((congrArg Option.isSome hcheck).symm.trans h) nofun
      | some p =>
          rw [semaUp_stop hwaiters hcheck]
          exact iff_of_false nofun fun h => h (congrArg Option.isSome hcheck)

theorem threadUnblock_runs_iff {created : Bool} (hrun : s.outcome = .running) :
    (s.threadUnblock t created).outcome = .running ↔ ¬ (s.unblockCheck t).isSome = true := by
  have hcheck : (s.enter .threadUnblock).unblockCheck t = s.unblockCheck t := rfl
  unfold threadUnblock
  dsimp only
  rw [hcheck]
  cases s.unblockCheck t with
  | none => exact iff_of_true hrun nofun
  | some p => exact iff_of_false nofun fun h => h rfl

theorem call_runs_iff {c : KernelCall} (hv : s.Valid) (hrun : s.outcome = .running)
    (hcall : s.call c = some s') : s'.outcome = .running ↔ ¬ s.CallStops c := by
  have hcurrent := hv.current.1
  cases c <;> simp only [Kernel.call, Option.ite_none_right_eq_some, Option.some.injEq] at hcall
  all_goals first | obtain rfl := hcall | obtain ⟨-, rfl⟩ := hcall
  case threadYield =>
    have hvalid : ((s.enter .threadYield).intDisable.goto (.yielded s.intFlag)).Valid :=
      Valid.goto (s := (s.enter .threadYield).intDisable) hv fun t ht =>
        absurd ht (Option.some_ne_none t).symm
    exact iff_of_true (hvalid.yieldOff_runs hrun rfl) not_false
  case threadBlock => exact threadBlock_runs_iff (s := s.goto .blocked) hrun hcurrent
  case threadUnblock t => exact threadUnblock_runs_iff hrun
  case threadSleep t ticks =>
    unfold threadSleep CallStops
    split
    · rename_i hzero
      exact iff_of_true hrun fun h => h.1 hzero
    · rename_i hticks
      split
      · rename_i hthread
        exact iff_of_false (stop_outcome_ne _) fun h => h ⟨hticks, hthread⟩
      · rename_i hthread
        exact iff_of_true hrun fun h => hthread h.2
  case semaDown n => exact semaDown_runs_iff hrun hcurrent
  case semaUp n => exact semaUp_runs_iff hrun
  case lockAccquire l =>
    unfold lockAccquire CallStops
    dsimp only
    split
    · rename_i hheld
      exact iff_of_false (stop_outcome_ne _) fun h => h hheld
    · rename_i hheld
      exact iff_of_true hrun hheld
  case lockRelease l =>
    unfold lockRelease CallStops
    dsimp only
    split
    · rename_i hheld
      exact iff_of_false (stop_outcome_ne _) fun h => h hheld
    · rename_i hheld
      exact iff_of_true hrun hheld
  all_goals
    refine iff_of_true ?_ not_false
    simpa [threadCreate, semaInit, lockInit, runReturn] using hrun

theorem advance_runs_iff {c : KernelCall} (hv : s.Valid) (hrun : s.outcome = .running)
    (hadvance : s.advance c = some s') : s'.outcome = .running ↔ ¬ s.AdvanceStops c := by
  have hcurrent := hv.current.1
  unfold AdvanceStops
  cases hplace : s.place s.current
  all_goals simp only [Kernel.advance, hplace, Option.some.injEq] at hadvance
  case user => exact call_runs_iff hv hrun hadvance
  all_goals subst hadvance
  case entry function =>
    cases function with
    | null => exact iff_of_false (stop_outcome_ne _) fun h => h rfl
    | idle => exact iff_of_true hrun ThreadFunc.noConfusion
    | code => exact iff_of_true hrun ThreadFunc.noConfusion
  case dying =>
    have hschedule := schedule_runs_iff (s := s.intDisable.goto .dead) hrun hcurrent
    rw [runEnd, hschedule, not_or]
    exact ⟨And.right, fun h => ⟨rfl, h⟩⟩
  case dead => exact iff_of_false (by simp) fun h => h trivial
  case initDown => exact semaDown_runs_iff hrun hcurrent
  case waiting r level => exact semaDownLoop_runs_iff hrun hcurrent
  case createUnblock new => exact threadUnblock_runs_iff hrun
  case accquireDown l => exact semaDown_runs_iff hrun hcurrent
  case releaseUp l =>
    rw [← semaUp_runs_iff hrun]
    unfold releaseUp
    dsimp only
    split
    · rfl
    · rw [goto_outcome, leave_outcome, setInside_outcome]
  case idleUp =>
    rw [← semaUp_runs_iff hrun]
    unfold idleUp
    dsimp only
    split
    · rfl
    · rw [goto_outcome]
  case idleBlock => exact threadBlock_runs_iff (s := s.goto .idleHlt) hrun hcurrent
  case unblocking t created =>
    refine iff_of_true ?_ not_false
    cases created <;> exact hrun
  case setHolder l => exact iff_of_true (by simpa [setHolder] using hrun) not_false
  all_goals exact iff_of_true hrun not_false

/-- `Stops` says after which steps the kernel goes on. -/
theorem step_runs_iff {a : Action} (hv : s.Valid) (hstep : s.step a = some s') :
    s'.outcome = .running ↔ ¬ s.Stops a := by
  unfold step at hstep
  split at hstep
  case isTrue => exact absurd hstep (by simp)
  case isFalse hrun =>
    have hrun : s.outcome = .running := not_not.mp hrun
    cases a with
    | tick =>
        simp only [Option.ite_none_right_eq_some, Option.some.injEq] at hstep
        obtain ⟨-, rfl⟩ := hstep
        refine iff_of_true ?_ not_false
        have hvalid : (s.interrupt.enter .threadYield).intDisable.Valid := hv
        unfold threadTick
        dsimp only
        split
        · exact hvalid.yieldOff_runs hrun rfl
        · exact hrun
    | run c =>
        dsimp only at hstep
        unfold Stops
        split at hstep
        case isTrue hin =>
          obtain rfl := Option.some.inj hstep
          exact iff_of_true hrun fun h => absurd (hin.symm.trans h.1) nofun
        case isFalse hin =>
          rw [advance_runs_iff hv hrun hstep]
          exact ⟨fun h hboth => h hboth.2, fun h hstops => h ⟨by simpa using hin, hstops⟩⟩
    | heapWord st =>
        obtain rfl := Option.some.inj hstep
        exact iff_of_true hrun not_false

end Kernel

namespace Place

/-- Places that a disciplined thread is at with interrupts off. -/
def guarded : Place → Bool
  | .createAppend _ | .createUnblock _ | .idleBlock => true
  | _ => false

/-- The new thread that `thread_create` is about to unblock. -/
def fresh : Place → Option Nat
  | .createAppend new | .createUnblock new => some new
  | _ => none

theorem guarded_of_fresh {p : Place} {new : Nat} (h : p.fresh = some new) : p.guarded = true := by
  cases p <;> first | rfl | exact absurd h nofun

end Place

namespace Kernel

section Discipline

variable (s : Kernel)

/-- What a call asks of the thread that makes it. -/
def Allows : KernelCall → Prop
  | .threadBlock => s.intFlag = false
  | .threadUnblock t => s.isThread t = true ∧ s.status t = .blocked
  | .threadSleep t _ => s.isThread t = true
  | .lockAccquire l => s.holder l ≠ s.current
  | .lockRelease l => s.holder l = s.current
  | _ => True

/-- The running thread has a function and keeps to the rules, and no tick ends the time slice of a
dying thread. -/
structure Disciplined (page : Nat → Nat) (a : Action) : Prop where
  starts : s.Acts a → s.place s.current ≠ .entry .null
  allows : ∀ c, a = .run c → s.inHandler s.current = false → s.place s.current = .user →
    s.Allows c
  finds : s.FindsBlocked a
  other : s.UnblocksOther a
  leaves : s.LeavesWaiters a
  live : s.SleepsLive a
  apart : s.CreatesApart page a
  slice : a = .tick → s.place s.current = .dying → s.tickCount + 1 < TIME_SLICE

instance (c : KernelCall) : Decidable (s.Allows c) :=
  match c with
  | .threadBlock => inferInstanceAs (Decidable (s.intFlag = false))
  | .threadUnblock t => inferInstanceAs (Decidable (s.isThread t = true ∧ s.status t = .blocked))
  | .threadSleep t _ => inferInstanceAs (Decidable (s.isThread t = true))
  | .lockAccquire l => inferInstanceAs (Decidable (s.holder l ≠ s.current))
  | .lockRelease l => inferInstanceAs (Decidable (s.holder l = s.current))
  | .intDisable | .intEnable | .threadYield | .threadCreate _ | .semaInit _ _ | .semaDown _
  | .semaUp _ | .lockInit _ | .returns => isTrue trivial

/-- `Disciplined` as a test. -/
def disciplined (page : Nat → Nat) (a : Action) : Bool :=
  s.findsBlocked a && s.unblocksOther a && s.leavesWaiters a && s.sleepsLive a &&
    s.createsApart page a && match a with
      | .tick => decide (s.place s.current ≠ .dying ∨ s.tickCount + 1 < TIME_SLICE)
      | .run c => s.inHandler s.current || decide (s.place s.current ≠ .entry .null ∧
          (s.place s.current ≠ .user ∨ s.Allows c))
      | .heapWord _ => true

variable {s} in
theorem disciplined_sound {page : Nat → Nat} {a : Action} (h : s.disciplined page a = true) :
    s.Disciplined page a := by
  simp only [disciplined, Bool.and_eq_true] at h
  obtain ⟨⟨⟨⟨⟨hfinds, hother⟩, hleaves⟩, hlive⟩, hapart⟩, htest⟩ := h
  refine ⟨?_, ?_, findsBlocked_sound hfinds, unblocksOther_sound hother,
    leavesWaiters_sound hleaves, sleepsLive_sound hlive, createsApart_sound hapart, ?_⟩
  · rintro ⟨hin, c, rfl⟩
    simp only [hin, Bool.false_or, decide_eq_true_eq] at htest
    exact htest.1
  · rintro c rfl hin hplace
    simp only [hin, Bool.false_or, decide_eq_true_eq] at htest
    exact htest.2.resolve_left fun hne => hne hplace
  · rintro rfl hdying
    exact (of_decide_eq_true htest).resolve_left fun hne => hne hdying

/-- What holds along a run of disciplined threads. -/
structure Steady : Prop where
  settled : s.Settled
  buried : s.sched.Buried
  semas : ∀ r ∈ s.initialised, s.SemaInvariant r
  dying : s.DyingRuns
  levels : s.LevelInvariant
  guarded : ∀ t, t ≠ 0 → t ≤ s.numThreads → (s.place t).guarded = true →
    t = s.current ∧ s.inHandler t = false ∧ s.intFlag = false
  fresh : ∀ new, (s.place s.current).fresh = some new → s.isThread new ∧ s.status new = .blocked

end Discipline

variable {s s' : Kernel} {a : Action} {page : Nat → Nat}

namespace Steady

theorem selected_ne_zero (h : s.Steady) (hbefore : (s.place s.current).beforeIdle = false) :
    s.selected ≠ 0 := by
  obtain ⟨hleaving, hlisted⟩ := h.settled.leavingBlock hbefore rfl
  exact hleaving.selected_ne_zero hlisted

theorem not_blockStops (h : s.Steady) (hbefore : (s.place s.current).beforeIdle = false)
    (hflag : s.intFlag = false) : ¬ s.BlockStops := by
  rintro (hon | hnull)
  · exact absurd (hflag.symm.trans hon) nofun
  · exact h.selected_ne_zero hbefore hnull

/-- `sema_down` disables interrupts before it blocks. -/
theorem not_downStops (h : s.Steady) (hbefore : (s.place s.current).beforeIdle = false)
    {r : SemaRef} : ¬ s.intDisable.DownStops r := by
  rintro ⟨-, hon | hnull⟩
  · exact absurd hon nofun
  · exact h.selected_ne_zero hbefore hnull

theorem not_upStops (h : s.Steady) {r : SemaRef} (hr : r ∈ s.initialised) : ¬ s.UpStops r := by
  unfold UpStops
  cases hwaiters : (s.semas r).waiters with
  | nil => exact not_false
  | cons t rest =>
      have ht : t ∈ (s.semas r).waiters := by
        rw [hwaiters]
        exact List.mem_cons_self
      have hthread := h.settled.roster.listed.created t (h.settled.roster.waiters r hr t ht)
      have hcheck : s.unblockCheck t = none :=
        unblockCheck_eq_none.mpr ⟨hthread, ((h.semas r hr).waits t ht).2⟩
      exact fun hstops => absurd ((congrArg Option.isSome hcheck).symm.trans hstops) nofun

theorem not_callStops (h : s.Steady) (hplace : s.place s.current = .user) {c : KernelCall}
    {s' : Kernel} (hcall : s.call c = some s') (hallows : s.Allows c) : ¬ s.CallStops c := by
  have hbefore : (s.place s.current).beforeIdle = false := by
    rw [hplace]
    rfl
  cases c with
  | threadBlock => exact h.not_blockStops hbefore hallows
  | threadUnblock t =>
      intro hstops
      have hcheck : s.unblockCheck t = none :=
        unblockCheck_eq_none.mpr ⟨isThread_iff.mp hallows.1, hallows.2⟩
      exact absurd ((congrArg Option.isSome hcheck).symm.trans hstops) nofun
  | threadSleep t ticks => exact fun hstops => hstops.2 hallows
  | semaDown n => exact h.not_downStops hbefore
  | semaUp n =>
      simp only [Kernel.call, Option.ite_none_right_eq_some] at hcall
      exact h.not_upStops hcall.1
  | lockAccquire l => exact fun hstops => hallows hstops
  | lockRelease l => exact fun hstops => hstops hallows
  | _ => exact not_false

theorem not_stops (h : s.Steady) (hok : s.Disciplined page a) (hstep : s.step a = some s') :
    ¬ s.Stops a := by
  cases a with
  | tick => exact not_false
  | heapWord st => exact not_false
  | run c =>
      rintro ⟨hin, hstops⟩
      have hcurrent := h.settled.valid.current
      have hsema := h.settled.prepared.used _ hcurrent.1 hcurrent.2
      unfold AdvanceStops at hstops
      cases hplace : s.place s.current <;> rw [hplace] at hstops hsema
      case entry function =>
        exact hok.starts ⟨hin, c, rfl⟩ (hplace.trans (congrArg Place.entry hstops))
      case user =>
        simp only [Kernel.step, hin, Bool.false_eq_true, if_false, Kernel.advance, hplace,
          Option.ite_none_left_eq_some] at hstep
        exact h.not_callStops hplace hstep.2 (hok.allows c rfl hin hplace) hstops
      case dying =>
        have hdying := (h.dying _ hcurrent.1 hcurrent.2 hplace).2
        rcases hstops with hrunning | hnull
        · cases hdying.symm.trans hrunning
        · obtain ⟨hleaving, hlisted⟩ := h.settled.leavingEnd hplace hdying rfl
          exact hleaving.selected_ne_zero hlisted hnull
      case dead => exact h.settled.not_dead h.buried hplace
      case initDown => exact h.not_downStops (by rw [hplace]; rfl) hstops
      case waiting r level =>
        have hoff := (h.levels.levels (running_of_step _ _ _ hstep)).off_of_suspended hin
          (by rw [hplace]; rfl)
        exact h.not_blockStops (by rw [hplace]; rfl) hoff hstops.2
      case createUnblock new =>
        obtain ⟨hthread, hblocked⟩ := h.fresh new (by rw [hplace]; rfl)
        have hcheck : s.unblockCheck new = none :=
          unblockCheck_eq_none.mpr ⟨isThread_iff.mp hthread, hblocked⟩
        exact Bool.false_ne_true ((congrArg Option.isSome hcheck).symm.trans hstops)
      case accquireDown l => exact h.not_downStops (by rw [hplace]; rfl) hstops
      case releaseUp l => exact h.not_upStops (hsema _ rfl) hstops
      case idleUp => exact h.not_upStops h.settled.prepared.started hstops
      case idleBlock =>
        have hoff := (h.guarded _ hcurrent.1 hcurrent.2 (by rw [hplace]; rfl)).2.2
        exact h.not_blockStops (by rw [hplace]; rfl) hoff hstops
      all_goals exact hstops

end Steady

/-! ## Places with interrupts off -/

/-- A thread comes to such a place through `thread_create` and in the loop of `idle` alone. -/
theorem call_guarded {c : KernelCall} (hplace : s.place s.current = .user)
    (hcall : s.call c = some s') (hg : (s'.place s.current).guarded = true) :
    ∃ null, c = .threadCreate null ∧ s' = s.threadCreate (if null then .null else .code) := by
  cases c <;> simp only [Kernel.call, Option.ite_none_right_eq_some, Option.some.injEq] at hcall
  all_goals first | obtain rfl := hcall | obtain ⟨-, rfl⟩ := hcall
  case threadCreate null => exact ⟨null, rfl, rfl⟩
  all_goals
    refine absurd hg ?_
  case threadUnblock t =>
    unfold threadUnblock
    dsimp only
    split <;> simp [hplace, Place.guarded]
  case threadSleep t ticks =>
    unfold threadSleep
    repeat' split
    all_goals simp [hplace, Place.guarded]
  case lockAccquire l =>
    unfold lockAccquire
    dsimp only
    split <;> simp [hplace, Place.guarded]
  case lockRelease l =>
    unfold lockRelease
    dsimp only
    split <;> simp [hplace, Place.guarded]
  case semaDown n =>
    unfold semaDown semaDownLoop
    dsimp only
    split <;> simp [afterDown, Place.guarded]
  all_goals simp [hplace, Place.guarded, threadYield, semaInit, lockInit, runReturn]

theorem semaDownLoop_guarded {u : Kernel} {r : SemaRef} {level : Bool}
    (hcurrent : u.current = s.current) :
    ((u.semaDownLoop r level).place s.current).guarded = false := by
  unfold semaDownLoop
  dsimp only
  split
  · simp [hcurrent, Place.guarded]
  · cases r <;> simp [hcurrent, afterDown, Place.guarded]

theorem advance_guarded {c : KernelCall} (hadvance : s.advance c = some s')
    (hrun : s'.outcome = .running) (hg : (s'.place s.current).guarded = true) :
    (∃ null, s.place s.current = .user ∧ c = .threadCreate null ∧
        s' = s.threadCreate (if null then .null else .code)) ∨
      (∃ new, s.place s.current = .createAppend new ∧ s' = s.createAppend new) ∨
      s.place s.current = .idleLoop ∧ s' = s.intDisable.goto .idleBlock := by
  cases hplace : s.place s.current
  all_goals simp only [Kernel.advance, hplace, Option.some.injEq] at hadvance
  case user =>
    obtain ⟨null, hc, hs'⟩ := call_guarded hplace hadvance hg
    exact .inl ⟨null, rfl, hc, hs'⟩
  all_goals subst hadvance
  case createAppend new => exact .inr (.inl ⟨new, rfl, rfl⟩)
  case idleLoop => exact .inr (.inr ⟨rfl, rfl⟩)
  all_goals
    refine absurd hg ?_
    rw [Bool.not_eq_true]
  case entry function => cases function <;> simp [run, hplace, Place.guarded]
  case initDown => exact semaDownLoop_guarded (u := (s.enter .semaDown).intDisable) rfl
  case waiting r level => exact semaDownLoop_guarded rfl
  case accquireDown l => exact semaDownLoop_guarded (u := (s.enter .semaDown).intDisable) rfl
  case unblocking t created =>
    cases created <;> simp [unblockReturn, unblockOff, Place.guarded]
  case createUnblock new =>
    unfold threadUnblock at hrun ⊢
    dsimp only at hrun ⊢
    split at hrun
    · cases hrun
    · simp [*, Place.guarded]
  case releaseUp l =>
    unfold releaseUp
    dsimp only
    split <;> simp [hplace, Place.guarded]
  case idleUp =>
    unfold idleUp
    dsimp only
    split <;> simp [hplace, Place.guarded]
  all_goals simp [hplace, Place.guarded, runEnd, yieldReturn, sleepOff, setHolder, clearHolder,
    idleStart]

/-- No tick lands at such a place, and a new thread stays blocked. -/
structure Guards (s s' : Kernel) : Prop where
  current : s'.current = s.current
  inHandler : s'.inHandler s.current = false
  flag : s'.intFlag = false
  fresh : ∀ new, (s'.place s.current).fresh = some new →
    s'.isThread new = true ∧ s'.status new = .blocked

theorem Steady.guards (h : s.Steady) (hok : s.Disciplined page a) (hstep : s.step a = some s')
    (hrun : s'.outcome = .running) (hg : (s'.place s.current).guarded = true) : s.Guards s' := by
  have hcurrent := h.settled.valid.current
  have hhere := h.guarded _ hcurrent.1 hcurrent.2
  revert hrun hg
  refine step_cases (P := fun s' => s'.outcome = .running →
    (s'.place s.current).guarded = true → s.Guards s') hstep ?_ ?_ ?_ ?_
  · intro _ _ hflag _ hg
    rw [threadTick_place] at hg
    exact absurd ((hhere hg).2.2.symm.trans hflag) nofun
  · exact fun _ hin _ hg => absurd ((hhere hg).2.1.symm.trans hin) nofun
  · rintro c s' rfl hrunning hin hadvance hrun hg
    rcases advance_guarded hadvance hrun hg with
      ⟨null, hplace, rfl, rfl⟩ | ⟨new, hplace, rfl⟩ | ⟨-, rfl⟩
    · -- `thread_create` is called with interrupts off
      have hoff := (hok.apart ⟨hin, _, rfl⟩ hplace ⟨null, rfl⟩).1
      have hne : s.current ≠ s.numThreads + 1 := by omega
      refine ⟨rfl, by simpa [threadCreate, hne] using hin, by simp [threadCreate, hoff],
        fun new hnew => ?_⟩
      have hnew : s.numThreads + 1 = new := by
        simpa [threadCreate, Place.fresh] using hnew
      subst hnew
      exact ⟨isThread_iff.mpr ⟨Nat.succ_ne_zero _, by simp [threadCreate]⟩,
        by simp [threadCreate]⟩
    · obtain ⟨-, -, hoff⟩ := hhere (by rw [hplace]; rfl)
      refine ⟨rfl, hin, hoff, fun t ht => ?_⟩
      have ht : new = t := by
        simpa [createAppend, Place.fresh] using ht
      subst ht
      exact h.fresh new (by rw [hplace]; rfl)
    · exact ⟨rfl, hin, rfl, fun new hnew => absurd hnew (by simp [Place.fresh])⟩
  · intro _ st _ hg
    obtain ⟨-, hin, hoff⟩ := hhere hg
    refine ⟨rfl, hin, hoff, fun new hnew => ?_⟩
    obtain ⟨hthread, hblocked⟩ := h.fresh new hnew
    refine ⟨hthread, ?_⟩
    rw [setStatus_status, Function.update_of_ne (isThread_iff.mp hthread).1]
    exact hblocked

/-! ## Runs -/

theorem Steady.step (h : s.Steady) (hok : s.Disciplined page a) (hstep : s.step a = some s') :
    s'.outcome = .running ∧ s'.Steady ∧ s.After a s' := by
  have hv := h.settled.valid
  have hrun := (step_runs_iff hv hstep).mpr (h.not_stops hok hstep)
  have hmoves := step_moves hv hstep
  rcases h.settled.step hok.finds hok.other (fun _ r hr => (h.semas r hr).current) hstep with
    ⟨-, hsettled, hafter⟩ | ⟨p, hp⟩ | ⟨-, hover⟩
  · have hothers : ∀ t, t ≠ 0 → t ≤ s'.numThreads → t ≠ s.current →
        s'.place t = s.place t ∧ t ≤ s.numThreads ∨
          ∃ function, s'.place t = .entry function := by
      intro t h0 hle hcur
      rcases hmoves.threads with hnum | ⟨hnum, function, -, hentry⟩
      · exact .inl ⟨hmoves.others t hcur (hnum ▸ hle), hnum ▸ hle⟩
      · by_cases hnew : t = s.numThreads + 1
        · exact .inr ⟨function, hnew ▸ hentry⟩
        · exact .inl ⟨hmoves.others t hcur (by omega), by omega⟩
    have hguarded : ∀ t, t ≠ 0 → t ≤ s'.numThreads → (s'.place t).guarded = true →
        t = s.current := by
      intro t h0 hle hg
      by_contra hcur
      rcases hothers t h0 hle hcur with ⟨hsame, hle⟩ | ⟨function, hentry⟩
      · exact hcur (h.guarded t h0 hle (hsame ▸ hg)).1
      · rw [hentry] at hg
        exact absurd hg nofun
    refine ⟨hrun, ⟨hsettled, ?_, ?_, ?_, ?_, ?_, ?_⟩, hafter⟩
    · exact h.settled.buried h.buried hok.finds hok.live
        (step_effect hv h.settled.prepared hstep) hrun
    · exact fun r hr => h.settled.semaStep h.semas hok.leaves hafter hstep hr
    · exact h.dying.step h.settled hok.slice hstep hrun
    · exact h.levels.step hv hstep
    · intro t h0 hle hg
      obtain rfl := hguarded t h0 hle hg
      have hguards := h.guards hok hstep hrun hg
      exact ⟨hguards.current.symm, hguards.inHandler, hguards.flag⟩
    · intro new hnew
      have hg := Place.guarded_of_fresh hnew
      have hcurrent := hguarded _ hsettled.valid.current.1 hsettled.valid.current.2 hg
      rw [hcurrent] at hg hnew
      exact (h.guards hok hstep hrun hg).fresh new hnew
  · exact absurd (hrun.symm.trans hp) nofun
  · exact absurd (hrun.symm.trans hover) nofun

theorem Start.steady (h : s.Start) : s.Steady := by
  have hplaces : ∀ t, t ≠ 0 → t ≤ s.numThreads →
      s.place t = .initDown ∨ s.place t = .entry .idle := by
    intro t h0 hle
    rw [h.numThreads] at hle
    obtain rfl | rfl : t = 1 ∨ t = 2 := by omega
    · exact .inl h.place₁
    · exact .inr h.place₂
  refine ⟨h.settled, h.buried, h.semaInvariant, h.dyingRuns, h.levelInvariant, ?_, ?_⟩
  · intro t h0 hle hg
    rcases hplaces t h0 hle with hplace | hplace <;> rw [hplace] at hg <;> cases hg
  · intro new hnew
    rw [h.current, h.place₁] at hnew
    exact absurd hnew nofun

end Kernel

/-- Disciplined threads never stop the kernel. -/
theorem steady_of_disciplined {page : Nat → Nat} {s : Kernel}
    (run : kernelMachine.Reach (fun s a => s.Disciplined page a) s) :
    s.outcome = .running ∧ s.Steady := by
  apply run.invariant
  · exact fun s h => ⟨h.outcome, h.steady⟩
  · rintro s a s' ⟨-, h⟩ hok hstep
    obtain ⟨hrun, h', -⟩ := h.step hok hstep
    exact ⟨hrun, h'⟩

end NickOS3.Thread
