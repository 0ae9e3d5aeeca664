import NickOS3.Foundation.Paths
import NickOS3.Foundation.Lines
import NickOS3.Thread.Effects
import NickOS3.Thread.Sleeping

/-!
# Turns of the processor

The ready queue is a waiting line that `schedule` serves. A step changes it by at most one
thread that joins or withdraws, or it calls `schedule`, and the timer sees to it that it is
called in time.
-/

namespace NickOS3.Thread

open Foundation

def Action.ticks : Action → Nat
  | .tick => 1
  | _ => 0

namespace Kernel

variable (s : Kernel)

/-- A step of the running thread that does not call `schedule`. -/
structure Stays (s' : Kernel) : Prop where
  current : s'.current = s.current
  completions : s'.completions = s.completions
  ticks : s'.tickCount = s.tickCount
  line : s'.readyThreads = s.readyThreads ∨ (∃ t, s'.readyThreads = s.readyThreads ++ [t]) ∨
    ∃ t, s.place s.current = .sleeping t ∧ s'.readyThreads = s.readyThreads.erase t

/-- A step that calls `schedule`, with the running thread in the queue again or not. -/
inductive Switches : Kernel → Prop
  | schedule (u : Kernel) (before : s.Before u) (line : u.readyThreads = s.readyThreads ∨
      u.readyThreads = s.readyThreads ++ [s.current]) : Switches u.schedule

variable {s} {s' u : Kernel} {a : Action} {t : Nat}

theorem Quiet.switches_yieldOff (h : s.Quiet u) : s.Switches u.yieldOff := by
  have hbefore : s.Before (u.setStatus u.current .ready).requeue := by
    refine ⟨?_, ?_, ?_, ?_⟩
    · simpa using h.current
    · simpa using h.completions
    · simpa using h.kills
    · simpa using h.numThreads
  refine .schedule _ hbefore ?_
  rw [requeue_readyThreads]
  split
  · right
    rw [setStatus_readyThreads, setStatus_current, h.ready, h.current]
  · left
    rw [setStatus_readyThreads, h.ready]

theorem Quiet.turn_threadBlock (h : s.Quiet u) (hticks : u.tickCount = s.tickCount) :
    s.Stays u.threadBlock ∨ s.Switches u.threadBlock := by
  unfold Kernel.threadBlock
  split
  · exact .inl ⟨h.current, h.completions, hticks, .inl h.ready⟩
  · exact .inr (.schedule (u.setStatus u.current .blocked)
      ⟨h.current, h.completions, h.kills, h.numThreads⟩ (.inl h.ready))

theorem Quiet.turn_semaDownLoop (h : s.Quiet u) (hticks : u.tickCount = s.tickCount)
    (r : SemaRef) (level : Bool) :
    s.Stays (u.semaDownLoop r level) ∨ s.Switches (u.semaDownLoop r level) := by
  unfold Kernel.semaDownLoop
  dsimp only
  split
  · exact Quiet.turn_threadBlock
      ⟨⟨h.current, h.completions, h.kills, h.numThreads⟩, h.ready, h.idle⟩ hticks
  · exact .inl ⟨h.current, h.completions, hticks, .inl h.ready⟩

theorem turn_semaDown (r : SemaRef) : s.Stays (s.semaDown r) ∨ s.Switches (s.semaDown r) :=
  Quiet.turn_semaDownLoop (s := s) (u := (s.enter .semaDown).intDisable)
    ⟨⟨rfl, rfl, rfl, rfl⟩, rfl, rfl⟩ rfl r s.intFlag

theorem Stays.goto (h : s.Stays u) (p : Place) : s.Stays (u.goto p) :=
  ⟨h.current, h.completions, h.ticks, h.line⟩

theorem Stays.setInside_leave (h : s.Stays u) (l : Nat) (ts : List Nat) :
    s.Stays (u.setInside l ts).leave :=
  ⟨h.current, h.completions, h.ticks, h.line⟩

theorem stays_threadUnblock (t : Nat) (created : Bool) :
    s.Stays (s.threadUnblock t created) := by
  unfold Kernel.threadUnblock
  dsimp only
  split <;> exact ⟨rfl, rfl, rfl, .inl rfl⟩

/-- `sema_up` lets one thread join the queue, or none. -/
theorem stays_semaUp (hrun : s.outcome = .running) (r : SemaRef) : s.Stays (s.semaUp r) := by
  refine ⟨by simp, by simp, by simp, ?_⟩
  cases hwaiters : (s.semas r).waiters with
  | nil =>
      rw [semaUp_empty hwaiters hrun]
      exact .inl rfl
  | cons t rest =>
      cases hcheck : s.unblockCheck t with
      | none =>
          rw [semaUp_wake hwaiters hcheck hrun]
          exact .inr (.inl ⟨t, rfl⟩)
      | some p =>
          rw [semaUp_stop hwaiters hcheck]
          exact .inl rfl

theorem call_turn {c : KernelCall} (hrun : s.outcome = .running) (hcall : s.call c = some s') :
    s.Stays s' ∨ s.Switches s' := by
  cases c <;> simp only [Kernel.call, Option.ite_none_right_eq_some, Option.some.injEq] at hcall
  all_goals first | obtain rfl := hcall | obtain ⟨-, rfl⟩ := hcall
  case threadYield =>
    exact .inr (Quiet.switches_yieldOff (s := s)
      (u := (s.enter .threadYield).intDisable.goto (.yielded s.intFlag))
      ⟨⟨rfl, rfl, rfl, rfl⟩, rfl, rfl⟩)
  case threadBlock =>
    exact Quiet.turn_threadBlock (s := s) (u := s.goto .blocked)
      ⟨⟨rfl, rfl, rfl, rfl⟩, rfl, rfl⟩ rfl
  case threadUnblock t => exact .inl (stays_threadUnblock t false)
  case threadSleep t ticks =>
    unfold threadSleep
    repeat' split
    all_goals exact .inl ⟨rfl, rfl, rfl, .inl rfl⟩
  case semaDown n => exact turn_semaDown _
  case semaUp n => exact .inl (stays_semaUp hrun _)
  case lockAccquire l =>
    unfold lockAccquire
    dsimp only
    split <;> exact .inl ⟨rfl, rfl, rfl, .inl rfl⟩
  case lockRelease l =>
    unfold lockRelease
    dsimp only
    split <;> exact .inl ⟨rfl, rfl, rfl, .inl rfl⟩
  case threadCreate null =>
    left
    constructor <;> simp [threadCreate]
  case semaInit n value =>
    left
    constructor <;> simp [semaInit]
  case lockInit l =>
    left
    constructor <;> simp [lockInit, semaInit]
  all_goals exact .inl ⟨rfl, rfl, rfl, .inl rfl⟩

theorem advance_turn {c : KernelCall} (hrun : s.outcome = .running)
    (hadvance : s.advance c = some s') : s.Stays s' ∨ s.Switches s' := by
  cases hplace : s.place s.current
  all_goals simp only [Kernel.advance, hplace, Option.some.injEq] at hadvance
  case user => exact call_turn hrun hadvance
  all_goals subst hadvance
  case entry function => cases function <;> exact .inl ⟨rfl, rfl, rfl, .inl rfl⟩
  case dying =>
    exact .inr (.schedule (s.intDisable.goto .dead) ⟨rfl, rfl, rfl, rfl⟩ (.inl rfl))
  case initDown => exact turn_semaDown _
  case waiting r level =>
    exact Quiet.turn_semaDownLoop (u := s) ⟨⟨rfl, rfl, rfl, rfl⟩, rfl, rfl⟩ rfl r level
  case unblocking t created => cases created <;> exact .inl ⟨rfl, rfl, rfl, .inr (.inl ⟨t, rfl⟩)⟩
  case createUnblock new => exact .inl (stays_threadUnblock new true)
  case sleeping t => exact .inl ⟨rfl, rfl, rfl, .inr (.inr ⟨t, hplace, rfl⟩)⟩
  case accquireDown l => exact turn_semaDown _
  case setHolder l =>
    left
    constructor <;> simp [setHolder]
  case releaseUp l =>
    have hup := stays_semaUp hrun (.lock l)
    unfold releaseUp
    dsimp only
    split
    · exact .inl hup
    · exact .inl ((hup.setInside_leave l _).goto .user)
  case idleUp =>
    have hup := stays_semaUp hrun .started
    unfold idleUp
    dsimp only
    split
    · exact .inl hup
    · exact .inl (hup.goto .idleLoop)
  case idleBlock =>
    exact Quiet.turn_threadBlock (s := s) (u := s.goto .idleHlt)
      ⟨⟨rfl, rfl, rfl, rfl⟩, rfl, rfl⟩ rfl
  all_goals exact .inl ⟨rfl, rfl, rfl, .inl rfl⟩

/-- A tick counts, or it ends the time slice with a call of `schedule`; no other step counts. -/
theorem step_turn (hstep : s.step a = some s') :
    s.Switches s' ∨ (∃ c, a = .run c) ∧ s.Stays s' ∧ s.inHandler s.current = false ∨
      s'.current = s.current ∧ s'.completions = s.completions ∧
        s'.readyThreads = s.readyThreads ∧
        (s'.tickCount = s.tickCount ∧ a ≠ .tick ∨
          s'.tickCount = s.tickCount + 1 ∧ s.tickCount + 1 < TIME_SLICE) := by
  unfold step at hstep
  split at hstep
  case isTrue => exact absurd hstep (by simp)
  case isFalse hrun =>
    have hrun : s.outcome = .running := not_not.mp hrun
    cases a with
    | tick =>
        simp only [Option.ite_none_right_eq_some, Option.some.injEq] at hstep
        obtain ⟨-, rfl⟩ := hstep
        unfold threadTick
        dsimp only
        split
        case isTrue =>
          exact .inl (Quiet.switches_yieldOff (u := (s.interrupt.enter .threadYield).intDisable)
            ⟨⟨rfl, rfl, rfl, rfl⟩, rfl, rfl⟩)
        case isFalse hslice =>
          exact .inr (.inr ⟨rfl, rfl, rfl, .inr ⟨rfl, Nat.lt_of_not_le hslice⟩⟩)
    | run c =>
        dsimp only at hstep
        split at hstep
        case isTrue =>
          obtain rfl := Option.some.inj hstep
          exact .inr (.inr ⟨rfl, rfl, rfl, .inl ⟨rfl, nofun⟩⟩)
        case isFalse hin =>
          rcases advance_turn hrun hstep with hstays | hswitches
          · exact .inr (.inl ⟨⟨c, rfl⟩, hstays, by simpa using hin⟩)
          · exact .inl hswitches
    | heapWord st =>
        obtain rfl := Option.some.inj hstep
        exact .inr (.inr ⟨rfl, rfl, rfl, .inl ⟨rfl, nofun⟩⟩)

/-! ## The ready queue as a waiting line -/

theorem switchComplete_readyThreads (prev : Nat) :
    (s.switchComplete prev).readyThreads = s.readyThreads ∨
      (s.switchComplete prev).readyThreads = s.readyThreads.erase prev := by
  unfold switchComplete
  dsimp only
  split
  · exact .inr rfl
  · exact .inl rfl

/-- `schedule` serves the line once; behind it the thread that it left may withdraw. -/
theorem schedule_changes (hrun : s.schedule.outcome = .running) :
    ∃ prev, (prev = 0 ∨ prev = s.current) ∧ (s.schedule.readyThreads = s.readyThreads.tail ∨
      s.schedule.readyThreads = s.readyThreads.tail.erase prev) := by
  obtain ⟨-, -, ⟨-, heq⟩ | ⟨-, -, heq⟩⟩ := s.schedule_running hrun
  · refine ⟨0, .inl rfl, ?_⟩
    have hready := s.popReady.switchComplete_readyThreads 0
    rw [popReady_eq] at hready
    rw [heq, popReady_eq]
    exact hready
  · refine ⟨s.current, .inr rfl, ?_⟩
    have hready :=
      ({ s.popReady with current := s.selected } : Kernel).switchComplete_readyThreads s.current
    rw [popReady_eq] at hready
    rw [heq, popReady_eq]
    exact hready

theorem schedule_goesOn (hrun : s.schedule.outcome = .running) :
    s.schedule.current = s.selected ∧ s.schedule.tickCount = 0 ∧
      ∃ prev, s.schedule.completions = ⟨prev, s.selected⟩ :: s.completions := by
  obtain ⟨-, -, ⟨hsame, heq⟩ | ⟨-, -, heq⟩⟩ := s.schedule_running hrun
  · rw [heq, switchComplete_eq, popReady_eq, hsame]
    exact ⟨rfl, rfl, 0, rfl⟩
  · rw [heq, switchComplete_eq, popReady_eq]
    exact ⟨rfl, rfl, s.current, rfl⟩

theorem mem_head?_selected (h : t ∈ s.readyThreads.head?.toList) : s.selected = t := by
  rw [selected, Option.mem_toList.mp h, Option.getD_some]

/-- What a step does to the line: `schedule` serves it, and who withdraws is null, the running
thread or the one that is put to sleep. -/
theorem step_changes (hstep : s.step a = some s') (hrun : s'.outcome = .running) :
    ∃ changes : List (LineChange Nat),
      s'.readyThreads = LineChange.applyAll s.readyThreads changes ∧
      s'.completions.length = s.completions.length + LineChange.serves changes ∧
      (∀ t ∈ LineChange.served s.readyThreads changes, s.Dispatches s' t) ∧
      ∀ t, .withdraw t ∈ changes →
        t = 0 ∨ t = s.current ∨ s.Acts a ∧ s.place s.current = .sleeping t := by
  rcases step_turn hstep with ⟨u, hbefore, hline⟩ | ⟨hact, hstays, hin⟩ | ⟨-, hsame, hready, -⟩
  · obtain ⟨-, -, prev, hcompletions⟩ := schedule_goesOn hrun
    obtain ⟨left, hleft, htail⟩ := schedule_changes hrun
    have hdispatch : ∀ t ∈ u.readyThreads.head?.toList, s.Dispatches u.schedule t := by
      intro t ht
      refine ⟨_, hbefore.completions ▸ hcompletions, mem_head?_selected ht⟩
    have hlength : u.schedule.completions.length = s.completions.length + 1 := by
      rw [hcompletions, hbefore.completions, List.length_cons]
    rw [hbefore.current] at hleft
    rcases hline with hline | hline <;> rw [hline] at hdispatch htail
    · rcases htail with htail | htail
      · exact ⟨[.serve], htail, hlength, by simpa [LineChange.served] using hdispatch, by simp⟩
      · refine ⟨[.serve, .withdraw left], htail, hlength,
          by simpa [LineChange.served] using hdispatch, ?_⟩
        rintro t ht
        obtain rfl : t = left := by simpa using ht
        exact hleft.imp_right .inl
    · rcases htail with htail | htail
      · exact ⟨[.join s.current, .serve], htail, hlength,
          by simpa [LineChange.served, LineChange.apply] using hdispatch, by simp⟩
      · refine ⟨[.join s.current, .serve, .withdraw left], htail, hlength,
          by simpa [LineChange.served, LineChange.apply] using hdispatch, ?_⟩
        rintro t ht
        obtain rfl : t = left := by simpa using ht
        exact hleft.imp_right .inl
  · have hlength : s'.completions.length = s.completions.length := by rw [hstays.completions]
    rcases hstays.line with hline | ⟨t, hline⟩ | ⟨t, hplace, hline⟩
    · exact ⟨[], hline, hlength, by simp [LineChange.served], by simp⟩
    · exact ⟨[.join t], hline, hlength, by simp [LineChange.served], by simp⟩
    · refine ⟨[.withdraw t], hline, hlength, by simp [LineChange.served], ?_⟩
      intro u hu
      obtain rfl : u = t := by simpa using hu
      exact .inr (.inr ⟨⟨hin, hact⟩, hplace⟩)
  · exact ⟨[], hready, by rw [hsame]; rfl, by simp [LineChange.served], by simp⟩

/-- Another thread runs behind a step only when it was dispatched. -/
theorem step_current (hstep : s.step a = some s') (hrun : s'.outcome = .running) :
    s'.current = s.current ∨ s.Dispatches s' s'.current := by
  rcases step_turn hstep with ⟨u, hbefore, -⟩ | ⟨-, hstays, -⟩ | ⟨hcurrent, -⟩
  · obtain ⟨hcurrent, -, prev, hcompletions⟩ := schedule_goesOn hrun
    rw [hbefore.completions] at hcompletions
    exact .inr ⟨_, hcompletions, hcurrent.symm⟩
  · exact .inl hstays.current
  · exact .inl hcurrent

/-- A step of the kernel that does not put `t` to sleep. -/
def KeepsAwake (t : Nat) (s : Kernel) (a : Action) : Prop :=
  s.Acts a → s.place s.current ≠ .sleeping t

/-- A thread in the queue is dispatched, or it stays there and moves up for each `schedule`. -/
theorem step_dispatches_or_waits (hv : s.Valid) (hready : t ∈ s.readyThreads)
    (hother : t ≠ s.current) (hawake : s.KeepsAwake t a) (hstep : s.step a = some s')
    (hrun : s'.outcome = .running) :
    s.Dispatches s' t ∨ (t ∈ s'.readyThreads ∧ t ≠ s'.current) ∧
      s'.readyThreads.idxOf t + s'.completions.length ≤
        s.readyThreads.idxOf t + s.completions.length := by
  obtain ⟨changes, hline, hlength, hserved, hleaves⟩ := step_changes hstep hrun
  have hstay : .withdraw t ∉ changes := by
    intro hmem
    rcases hleaves t hmem with h0 | hcurrent | ⟨hacts, hplace⟩
    · exact (hv.ready t hready).1 h0
    · exact hother hcurrent
    · exact hawake hacts hplace
  rcases LineChange.served_or_moves_up hready hstay with hmem | ⟨hmem, hle⟩
  · exact .inl (hserved t hmem)
  · rcases step_current hstep hrun with hsame | hdispatch
    · refine .inr ⟨⟨hline ▸ hmem, hsame ▸ hother⟩, ?_⟩
      rw [hline, hlength]
      omega
    · by_cases ht : t = s'.current
      · exact .inl (ht ▸ hdispatch)
      · refine .inr ⟨⟨hline ▸ hmem, ht⟩, ?_⟩
        rw [hline, hlength]
        omega

/-! ## Ticks -/

/-- A tick counts until the time slice is over, and each `schedule` starts a new one. -/
theorem step_ticks (hstep : s.step a = some s') (hrun : s'.outcome = .running) :
    a.ticks + (TIME_SLICE * s.completions.length + min s.tickCount (TIME_SLICE - 1)) ≤
      TIME_SLICE * s'.completions.length + min s'.tickCount (TIME_SLICE - 1) := by
  have hone : a.ticks ≤ 1 := by cases a <;> simp [Action.ticks]
  rcases step_turn hstep with ⟨u, hbefore, -⟩ | ⟨⟨c, rfl⟩, hstays, -⟩ | ⟨-, hsame, -, hticks⟩
  · obtain ⟨-, hzero, prev, hcompletions⟩ := schedule_goesOn hrun
    rw [hcompletions, hbefore.completions, hzero, List.length_cons]
    simp only [TIME_SLICE]
    omega
  · rw [hstays.completions, hstays.ticks]
    exact Nat.le_of_eq (Nat.zero_add _)
  · rw [hsame]
    rcases hticks with ⟨hcount, hnot⟩ | ⟨hcount, hslice⟩
    · rw [hcount]
      cases a with
      | tick => exact absurd rfl hnot
      | run c => exact Nat.le_of_eq (Nat.zero_add _)
      | heapWord st => exact Nat.le_of_eq (Nat.zero_add _)
    · rw [hcount]
      simp only [TIME_SLICE] at hslice ⊢
      omega

end Kernel

/-- A thread in the ready queue is dispatched once `schedule` has been called more often than
threads stood in front of it, and so within a time slice for each of them and itself. -/
theorem dispatched_in_turn {s s' : Kernel} {as : List Action} {t : Nat}
    (run : kernelMachine.Reachable s) (hready : t ∈ s.readyThreads) (hother : t ≠ s.current)
    (path : kernelMachine.Path (Kernel.KeepsAwake t) s as s') (hrun : s'.outcome = .running)
    (hturns : s.readyThreads.idxOf t + s.completions.length < s'.completions.length ∨
      TIME_SLICE * (s.readyThreads.idxOf t + 1) ≤ (as.map Action.ticks).sum) :
    kernelMachine.Meets (Kernel.KeepsAwake t) (fun u _ u' => u.Dispatches u' t) s as s' := by
  have hwork : s.readyThreads.idxOf t + s.completions.length < s'.completions.length := by
    refine hturns.elim id fun hticks => ?_
    have hcost := path.cost_le Action.ticks
      (fun u => TIME_SLICE * u.completions.length + min u.tickCount (TIME_SLICE - 1))
      Kernel.running_of_step (fun _ _ _ hstep hrun => Kernel.step_ticks hstep hrun) hrun
    simp only [TIME_SLICE] at hticks hcost
    omega
  refine path.meets_of_work
    (fun u => kernelMachine.Reachable u ∧ t ∈ u.readyThreads ∧ t ≠ u.current)
    (fun u => u.readyThreads.idxOf t) (fun u => u.completions.length)
    Kernel.running_of_step ?_ ⟨run, hready, hother⟩ hrun hwork
  rintro u a u' ⟨hreach, hready, hother⟩ hawake hstep hrun
  have hnext := Kernel.step_dispatches_or_waits (valid_of_reach hreach) hready hother hawake
    hstep hrun
  exact hnext.imp_right fun h => ⟨⟨.step hreach trivial hstep, h.1⟩, h.2⟩

/-- Four ticks, and the kernel thread makes way for the idle thread. -/
theorem dispatched_in_turn_idle : ∃ s', kernelMachine.Meets (Kernel.KeepsAwake 2)
    (fun u _ u' => u.Dispatches u' 2) startKernel (List.replicate 4 .tick) s' := by
  have hfields : ((startKernel.steps (fun s a => decide (s.fallsAsleep a ≠ some 2))
      (List.replicate 4 .tick)).map fun s => s.outcome) = some .running := by
    decide
  obtain ⟨s', hsteps, hrun⟩ := Option.map_eq_some_iff.mp hfields
  have hguard : ∀ (s : Kernel) (a : Action), decide (s.fallsAsleep a ≠ some 2) = true →
      s.KeepsAwake 2 a := by
    intro s a hok hacts hplace
    exact of_decide_eq_true hok (Kernel.fallsAsleep_iff.mpr ⟨hacts, hplace⟩)
  have path : kernelMachine.Path (Kernel.KeepsAwake 2) startKernel (List.replicate 4 .tick) s' :=
    Machine.Path.along hguard (fun _ _ _ _ h => h) .refl hsteps
  exact ⟨s', dispatched_in_turn (.start startKernel_start) (by decide) (by decide) path hrun
    (.inr (by decide))⟩

end NickOS3.Thread
