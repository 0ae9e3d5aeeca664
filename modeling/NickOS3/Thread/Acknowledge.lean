import NickOS3.Thread.Steps

/-!
# Acknowledging the timer

The end of interrupt is sent behind `thread_tick`, which may leave for another thread in
the middle. A thread that was not stopped by a tick itself then goes on without it. Only
the thread that was interrupted sends it on time, so it has to be the one that its own tick
selects.
-/

namespace NickOS3.Thread

open Foundation

/-- Runs in which no timer interrupt comes while the in-service bit is set. -/
def timerMachine : Machine Kernel Action where
  start s := s.Start
  step s a s' := (a = .tick → s.inService = false) ∧ s.step a = some s'

namespace Kernel

variable (s : Kernel)

/-- Outside the handler, interrupts are enabled only with the in-service bit clear. -/
def Acknowledged : Prop :=
  s.intFlag = true → s.inHandler s.current = false → s.inService = false

/-- A tick that ends the time slice selects the thread that it interrupts. -/
def TickKeeps (a : Action) : Prop :=
  a = .tick → s.tickCount + 1 ≥ TIME_SLICE → s.requeue.selected = s.current

/-! ## The in-service bit between ticks -/

section Frame

@[simp] theorem yieldOff_inService : s.yieldOff.inService = s.inService := by
  simp [yieldOff]

@[simp] theorem threadBlock_inService : s.threadBlock.inService = s.inService := by
  unfold threadBlock
  split <;> simp

@[simp] theorem unblockOff_inService (t : Nat) : (s.unblockOff t).inService = s.inService := by
  simp [unblockOff]

@[simp] theorem threadUnblock_inService (t : Nat) (created : Bool) :
    (s.threadUnblock t created).inService = s.inService := by
  simp only [threadUnblock]
  split <;> simp

@[simp] theorem unblockReturn_inService (t : Nat) (created : Bool) :
    (s.unblockReturn t created).inService = s.inService := by
  cases created <;> simp [unblockReturn]

@[simp] theorem threadSleep_inService (t ticks : Nat) :
    (s.threadSleep t ticks).inService = s.inService := by
  unfold threadSleep
  split
  · rfl
  · split <;> simp

@[simp] theorem run_inService (function : ThreadFunc) :
    (s.run function).inService = s.inService := by
  cases function <;> simp [run]

@[simp] theorem semaDownLoop_inService (r : SemaRef) (level : Bool) :
    (s.semaDownLoop r level).inService = s.inService := by
  simp only [semaDownLoop]
  split <;> simp

@[simp] theorem lockAccquire_inService (l : Nat) :
    (s.lockAccquire l).inService = s.inService := by
  simp only [lockAccquire]
  split <;> simp

@[simp] theorem lockRelease_inService (l : Nat) :
    (s.lockRelease l).inService = s.inService := by
  simp only [lockRelease]
  split <;> simp

@[simp] theorem releaseUp_inService (l : Nat) : (s.releaseUp l).inService = s.inService := by
  simp only [releaseUp]
  split <;> simp

@[simp] theorem idleUp_inService : s.idleUp.inService = s.inService := by
  simp only [idleUp]
  split <;> simp

variable {s} {s' : Kernel}

theorem call_inService {call : KernelCall} (h : s.call call = some s') :
    s'.inService = s.inService := by
  cases call <;> simp only [Kernel.call, Option.ite_none_right_eq_some, Option.some.injEq] at h
  all_goals first | obtain rfl := h | obtain ⟨-, rfl⟩ := h
  all_goals simp [threadYield, threadCreate, semaInit, semaDown, lockInit, runReturn]

theorem advance_inService {call : KernelCall} (h : s.advance call = some s') :
    s'.inService = s.inService := by
  unfold advance at h
  split at h
  case h_2 => exact call_inService h
  all_goals
    obtain rfl := Option.some.inj h
    simp [runEnd, semaDown, yieldReturn, createAppend, sleepOff, setHolder, clearHolder,
      idleStart]

end Frame

/-! ## Runs -/

section Runs

variable {s} {s' : Kernel}

theorem schedule_current_of_selected (h : s.selected = s.current) :
    s.schedule.current = s.current := by
  rcases s.schedule_current with hcurrent | ⟨hcurrent, -⟩
  · exact hcurrent
  · exact hcurrent.trans h

/-- A tick that selects the thread that it interrupts stays in the handler until it has
sent the end of interrupt. -/
theorem threadTick_inHandler (hkeeps : s.TickKeeps .tick)
    (h : s.threadTick.inService = true) :
    s.threadTick.inHandler s.threadTick.current = true := by
  unfold threadTick at h ⊢
  dsimp only at h ⊢
  split at h
  case isTrue hslice =>
    have hselected : (((s.interrupt.enter .threadYield).intDisable.setStatus s.current
        .ready).requeue).selected = s.current := by
      have hcurrent := hkeeps rfl (by simpa using hslice)
      unfold selected requeue at hcurrent ⊢
      by_cases hidle : s.current = s.idleThread
      · simpa [hidle] using hcurrent
      · simpa [hidle] using hcurrent
    have hcurrent : (s.interrupt.enter .threadYield).intDisable.yieldOff.current = s.current :=
      (schedule_current_of_selected (hselected.trans (by simp))).trans (by simp)
    rw [if_pos hslice, hcurrent]
    simp [yieldOff]
  case isFalse => simp at h

/-- While the in-service bit is set the handler is running. -/
theorem inHandler_of_inService {s : Kernel}
    (run : timerMachine.Reach (fun s a => s.TickKeeps a) s) :
    s.inService = true → s.inHandler s.current = true := by
  apply run.invariant
  · intro s hs hservice
    rw [hs.inService] at hservice
    exact absurd hservice (by decide)
  · rintro s a s' hinv hkeeps ⟨-, hstep⟩
    apply step_cases hstep
    · rintro rfl _ _ hservice
      exact threadTick_inHandler hkeeps hservice
    · intro _ _ hservice
      simp [tickReturn] at hservice
    · intro c s' _ _ hout hadvance hservice
      rw [advance_inService hadvance] at hservice
      rw [hinv hservice] at hout
      exact absurd hout (by decide)
    · exact fun _ st hservice => hinv hservice

end Runs

end Kernel

/-- In a run in which each tick that ends a time slice selects the thread that it
interrupts, every timer interrupt is acknowledged before a thread runs on. -/
theorem acknowledged_of_tickKeeps {s : Kernel}
    (run : timerMachine.Reach Kernel.TickKeeps s) : s.Acknowledged := by
  intro _ hout
  by_contra hservice
  have hin := Kernel.inHandler_of_inService run (by simpa using hservice)
  rw [hout] at hin
  exact absurd hin (by decide)

instance (s : Kernel) : (a : Action) → Decidable (s.TickKeeps a)
  | .tick => decidable_of_iff (s.tickCount + 1 ≥ TIME_SLICE → s.requeue.selected = s.current)
      ⟨fun h _ => h, fun h => h rfl⟩
  | .run _ | .heapWord _ => isTrue nofun

/-- The timer has not interrupted since the last end of interrupt. -/
def timerFree (s : Kernel) : Action → Bool
  | .tick => !s.inService
  | _ => true

theorem timerFree_step (s : Kernel) (a : Action) (s' : Kernel) (h : timerFree s a = true)
    (hstep : s.step a = some s') : timerMachine.step s a s' := by
  refine ⟨?_, hstep⟩
  rintro rfl
  simpa [timerFree] using h

/-- The fourth tick enters the idle thread, which enables interrupts with the in-service
bit set. -/
theorem not_acknowledged : ∃ s, timerMachine.Reachable s ∧ ¬ s.Acknowledged := by
  have hfields : ((startKernel.steps timerFree
      [.tick, .tick, .tick, .tick, .run .intEnable]).map fun s =>
        (s.intFlag, s.inHandler s.current, s.inService)) = some (true, false, true) := by
    decide
  obtain ⟨s, hsteps, hs⟩ := Option.map_eq_some_iff.mp hfields
  simp only [Prod.mk.injEq] at hs
  obtain ⟨hflag, hin, hservice⟩ := hs
  refine ⟨s, reach_steps (fun _ _ _ => trivial) timerFree_step (.start startKernel_start)
    hsteps, ?_⟩
  intro h
  rw [h hflag hin] at hservice
  exact absurd hservice (by decide)

/-- The kernel thread alone, through the end of a time slice. -/
theorem acknowledged_of_tickKeeps_run : ∃ s : Kernel, s.intFlag = true ∧
    s.inHandler s.current = false ∧ s.completions.length = 3 ∧ s.Acknowledged := by
  have hfields : ((startKernel.steps (fun s a => timerFree s a && decide (s.TickKeeps a))
      [.run .intEnable, .run .intEnable, .run .intEnable, .run .intEnable, .run .intEnable,
        .run .intEnable, .run .intEnable, .tick, .tick, .tick, .tick, .run .intEnable]).map
      fun s => (s.intFlag, s.inHandler s.current, s.completions.length)) =
        some (true, false, 3) := by
    decide
  obtain ⟨s, hsteps, hs⟩ := Option.map_eq_some_iff.mp hfields
  simp only [Prod.mk.injEq] at hs
  obtain ⟨hflag, hin, hcount⟩ := hs
  have run : timerMachine.Reach Kernel.TickKeeps s := by
    refine reach_steps ?_ ?_ (.start startKernel_start) hsteps
    · intro s a h
      simp only [Bool.and_eq_true, decide_eq_true_eq] at h
      exact h.2
    · intro s a s' h
      simp only [Bool.and_eq_true] at h
      exact timerFree_step s a s' h.1
  exact ⟨s, hflag, hin, hcount, acknowledged_of_tickKeeps run⟩

end NickOS3.Thread
