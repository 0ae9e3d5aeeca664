import NickOS3.Thread.Table

/-!
# Handing over to `switch_complete`

`prev` is set by the switch only. When `schedule` selects the thread that is running, it
hands the null pointer to `switch_complete`.
-/

namespace NickOS3.Thread

open Foundation

namespace Kernel

variable (s : Kernel)

/-- The thread that `sema_down` selects when it blocks. -/
def downSelects (r : SemaRef) : Option Nat :=
  if (s.semas r).value = 0 then some s.selected else none

/-- The thread that `thread_block` selects when it does not panic. -/
def blockSelects : Option Nat := if s.intFlag then none else some s.selected

/-- The thread that a call from a thread's own code selects. -/
def callSelects : KernelCall → Option Nat
  | .threadYield => some s.requeue.selected
  | .threadBlock => s.blockSelects
  | .semaDown n => s.downSelects (.sema n)
  | _ => none

/-- The thread that the next step of the running thread selects. -/
def advanceSelects (call : KernelCall) : Option Nat :=
  match s.place s.current with
  | .user => s.callSelects call
  | .dying => some s.selected
  | .initDown => s.downSelects .started
  | .waiting r _ => s.downSelects r
  | .accquireDown l => s.downSelects (.lock l)
  | .idleBlock => s.blockSelects
  | _ => none

/-- The thread that the `schedule` of a step selects; none when the step calls none. -/
def selects : Action → Option Nat
  | .tick => if s.tickCount + 1 ≥ TIME_SLICE then some s.requeue.selected else none
  | .run call => if s.inHandler s.current then none else s.advanceSelects call
  | .heapWord _ => none

/-- `switch_complete` got a thread; it killed at most that thread, which was dying and not
the running one; and if the running thread goes on, it is running and the queues are as
before. -/
def CompletesWell (s' : Kernel) : Prop :=
  ∃ c kills, s'.completions = c :: s.completions ∧ s'.kills = kills ++ s.kills ∧
    s'.isThread c.prev = true ∧
    (∀ k ∈ kills, k.thread = c.prev ∧ k.status = .dying ∧ k.thread ≠ k.current) ∧
    (c.current = s.current → s'.status s.current = .running ∧
      s'.readyThreads = s.readyThreads ∧ s'.allThreads = s.allThreads ∧
      s'.sleeperList = s.sleeperList)

/-- The state in front of the `schedule` of a step. -/
structure Before (u : Kernel) : Prop where
  current : u.current = s.current
  completions : u.completions = s.completions
  kills : u.kills = s.kills
  numThreads : u.numThreads = s.numThreads

variable {s} {s' u : Kernel}

theorem switchComplete_kills (prev : Nat) : (s.switchComplete prev).kills =
    if (s.setStatus s.current .running).status prev = .dying then
      ⟨prev, (s.setStatus s.current .running).status prev, s.current⟩ :: s.kills
    else s.kills := by
  unfold switchComplete
  dsimp only
  split <;> rfl

/-- `schedule` completes well exactly when it selects another thread. -/
theorem Before.completes_iff (h : s.Before u) (hcurrent : s.isThread s.current = true)
    (hrun : u.schedule.outcome = .running) :
    s.CompletesWell u.schedule ↔ u.selected ≠ s.current := by
  obtain ⟨-, -, ⟨hsame, heq⟩ | ⟨hne, -, heq⟩⟩ := u.schedule_running hrun
  · constructor
    · rintro ⟨c, kills, hc, -, hprev, -⟩
      rw [heq, switchComplete_eq, popReady_eq] at hc
      obtain rfl := (List.cons.inj hc).1
      simp [isThread] at hprev
    · exact fun hne => absurd (hsame.trans h.current) hne
  · refine ⟨fun _ => h.current ▸ hne, fun _ => ?_⟩
    rw [heq]
    refine ⟨⟨u.current, u.selected⟩, if u.status u.current = .dying then
      [⟨u.current, .dying, u.selected⟩] else [], ?_, ?_, ?_, ?_, ?_⟩
    · rw [switchComplete_eq, popReady_eq, ← h.completions]
    · rw [switchComplete_kills, popReady_eq, ← h.kills]
      by_cases hdying : u.status u.current = .dying
      · simp [hdying, hne.symm]
      · simp [hdying, hne.symm]
    · rw [switchComplete_eq, popReady_eq]
      simpa [isThread, h.current, h.numThreads] using hcurrent
    · intro k hk
      split at hk
      · rw [List.mem_singleton.mp hk]
        exact ⟨rfl, rfl, hne.symm⟩
      · simp at hk
    · intro hback
      exact absurd (hback.trans h.current.symm) hne

/-! ## The calls of `schedule` -/

/-- Nothing has happened yet that `schedule` reads or records. -/
structure Quiet (s u : Kernel) : Prop extends s.Before u where
  ready : u.readyThreads = s.readyThreads
  idle : u.idleThread = s.idleThread

/-- A step that calls `schedule`, and from which state. -/
def Selects (s : Kernel) (t : Nat) (s' : Kernel) : Prop :=
  ∃ u, s.Before u ∧ u.selected = t ∧ s' = u.schedule

/-- A step that does not call `schedule`. -/
def SelectsNone (s s' : Kernel) : Prop :=
  s'.completions = s.completions ∧ s'.kills = s.kills

/-- What a step does, by what `selects` says of it. -/
def SelectsAs (s : Kernel) (o : Option Nat) (s' : Kernel) : Prop :=
  match o with
  | some t => s.Selects t s'
  | none => s.SelectsNone s'

theorem Quiet.yieldOff (h : s.Quiet u) : s.Selects s.requeue.selected u.yieldOff := by
  refine ⟨(u.setStatus u.current .ready).requeue, ⟨?_, ?_, ?_, ?_⟩, ?_, rfl⟩
  · simpa using h.current
  · simpa using h.completions
  · simpa using h.kills
  · simpa using h.numThreads
  · unfold selected requeue
    by_cases hidle : s.current = s.idleThread <;>
      simp [h.current, h.idle, h.ready, hidle]

theorem Quiet.threadBlock (h : s.Quiet u) (hrun : u.threadBlock.outcome = .running) :
    u.intFlag = false ∧ s.Selects s.selected u.threadBlock := by
  unfold Kernel.threadBlock at hrun ⊢
  split at hrun
  case isTrue => exact absurd hrun nofun
  case isFalse hflag =>
    rw [if_neg hflag]
    refine ⟨by simpa using hflag, u.setStatus u.current .blocked,
      ⟨h.current, h.completions, h.kills, h.numThreads⟩, ?_, rfl⟩
    simp [selected, h.ready, h.idle]

theorem Quiet.semaDownLoop (h : s.Quiet u) {r : SemaRef} {level : Bool}
    (hsemas : u.semas = s.semas) (hrun : (u.semaDownLoop r level).outcome = .running) :
    s.SelectsAs (s.downSelects r) (u.semaDownLoop r level) := by
  unfold Kernel.semaDownLoop downSelects at *
  rw [hsemas] at hrun ⊢
  dsimp only at hrun ⊢
  split at hrun
  case isTrue hvalue =>
    rw [if_pos hvalue, if_pos hvalue]
    exact (Quiet.threadBlock (s := s) (u := ((u.record .malloc).setSema r _).goto _)
      ⟨⟨h.current, h.completions, h.kills, h.numThreads⟩, h.ready, h.idle⟩ hrun).2
  case isFalse hvalue =>
    rw [if_neg hvalue, if_neg hvalue]
    exact ⟨h.completions, h.kills⟩

theorem Quiet.semaDown (h : s.Quiet u) {r : SemaRef} (hsemas : u.semas = s.semas)
    (hrun : (u.semaDown r).outcome = .running) :
    s.SelectsAs (s.downSelects r) (u.semaDown r) :=
  Quiet.semaDownLoop (u := (u.enter .semaDown).intDisable)
    ⟨⟨h.current, h.completions, h.kills, h.numThreads⟩, h.ready, h.idle⟩ hsemas hrun

theorem quiet_self : s.Quiet s := ⟨⟨rfl, rfl, rfl, rfl⟩, rfl, rfl⟩

theorem call_selects {c : KernelCall} (hcall : s.call c = some s')
    (hrun : s'.outcome = .running) : s.SelectsAs (s.callSelects c) s' := by
  have hself := quiet_self (s := s)
  cases c <;> simp only [Kernel.call, Option.ite_none_right_eq_some, Option.some.injEq] at hcall
  all_goals first | obtain rfl := hcall | obtain ⟨-, rfl⟩ := hcall
  case threadYield =>
    exact Quiet.yieldOff (u := (s.enter .threadYield).intDisable.goto _)
      ⟨⟨rfl, rfl, rfl, rfl⟩, rfl, rfl⟩
  case threadBlock =>
    obtain ⟨hflag, hselects⟩ := Quiet.threadBlock (s := s) (u := s.goto .blocked)
      ⟨⟨rfl, rfl, rfl, rfl⟩, rfl, rfl⟩ hrun
    rw [goto_intFlag] at hflag
    simpa [callSelects, blockSelects, hflag, SelectsAs] using hselects
  case semaDown n => exact hself.semaDown rfl hrun
  case threadUnblock t =>
    unfold threadUnblock
    dsimp only
    split <;> exact ⟨rfl, rfl⟩
  case threadSleep t ticks =>
    unfold threadSleep
    repeat' split
    all_goals exact ⟨rfl, rfl⟩
  case semaUp n => exact ⟨by simp, by simp⟩
  case lockAccquire l =>
    unfold lockAccquire
    dsimp only
    split <;> exact ⟨rfl, rfl⟩
  case lockRelease l =>
    unfold lockRelease
    dsimp only
    split <;> exact ⟨rfl, rfl⟩
  all_goals constructor <;> simp [threadCreate, semaInit, lockInit, runReturn]

theorem advance_selects {c : KernelCall} (hadvance : s.advance c = some s')
    (hrun : s'.outcome = .running) : s.SelectsAs (s.advanceSelects c) s' := by
  have hself := quiet_self (s := s)
  unfold advanceSelects
  cases hplace : s.place s.current
  all_goals simp only [Kernel.advance, hplace, Option.some.injEq] at hadvance
  case user => exact call_selects hadvance hrun
  all_goals subst hadvance
  case entry function => cases function <;> exact ⟨rfl, rfl⟩
  case dying => exact ⟨s.intDisable.goto .dead, ⟨rfl, rfl, rfl, rfl⟩, rfl, rfl⟩
  case initDown => exact hself.semaDown rfl hrun
  case waiting r level => exact hself.semaDownLoop rfl hrun
  case accquireDown l => exact hself.semaDown rfl hrun
  case idleBlock =>
    obtain ⟨hflag, hselects⟩ := Quiet.threadBlock (s := s) (u := s.goto .idleHlt)
      ⟨⟨rfl, rfl, rfl, rfl⟩, rfl, rfl⟩ hrun
    rw [goto_intFlag] at hflag
    simpa [blockSelects, hflag, SelectsAs] using hselects
  case unblocking t created => cases created <;> exact ⟨rfl, rfl⟩
  case createUnblock new =>
    unfold threadUnblock
    dsimp only
    split <;> exact ⟨rfl, rfl⟩
  case releaseUp l =>
    unfold releaseUp
    dsimp only
    split <;> exact ⟨by simp, by simp⟩
  case idleUp =>
    unfold idleUp
    dsimp only
    split <;> exact ⟨by simp, by simp⟩
  case setHolder l => constructor <;> simp [setHolder]
  all_goals exact ⟨rfl, rfl⟩

/-- `selects` says which steps call `schedule`, and which thread these select. -/
theorem step_selects {a : Action} (hstep : s.step a = some s') (hrun : s'.outcome = .running) :
    s.SelectsAs (s.selects a) s' := by
  unfold step at hstep
  split at hstep
  case isTrue => exact absurd hstep (by simp)
  case isFalse =>
    cases a with
    | tick =>
        simp only [Option.ite_none_right_eq_some, Option.some.injEq] at hstep
        obtain ⟨-, rfl⟩ := hstep
        unfold threadTick
        simp only [selects]
        by_cases hslice : s.tickCount + 1 ≥ TIME_SLICE
        · rw [if_pos hslice, if_pos (by simpa using hslice)]
          exact Quiet.yieldOff (u := (s.interrupt.enter .threadYield).intDisable)
            ⟨⟨rfl, rfl, rfl, rfl⟩, rfl, rfl⟩
        · rw [if_neg hslice, if_neg (by simpa using hslice)]
          exact ⟨rfl, rfl⟩
    | run c =>
        simp only [selects]
        dsimp only at hstep
        split at hstep
        case isTrue hin =>
          obtain rfl := Option.some.inj hstep
          rw [if_pos hin]
          exact ⟨rfl, rfl⟩
        case isFalse hin =>
          rw [if_neg hin]
          exact advance_selects hstep hrun
    | heapWord st =>
        obtain rfl := Option.some.inj hstep
        exact ⟨rfl, rfl⟩

end Kernel

/-- In every reachable state, a step that calls `schedule` completes well exactly when
another thread than the running one is selected, and the other steps call neither
`switch_complete` nor `thread_kill`. -/
theorem completesWell_iff {s s' : Kernel} {a : Action} (run : kernelMachine.Reachable s)
    (hstep : s.step a = some s') (hrun : s'.outcome = .running) :
    (∀ t, s.selects a = some t → (s.CompletesWell s' ↔ t ≠ s.current)) ∧
      (s.selects a = none → s'.completions = s.completions ∧ s'.kills = s.kills) := by
  have hcurrent : s.isThread s.current = true :=
    Kernel.isThread_iff.mpr (valid_of_reach run).current
  have hselects := Kernel.step_selects hstep hrun
  constructor
  · intro t ht
    rw [ht] at hselects
    obtain ⟨u, hbefore, rfl, rfl⟩ := hselects
    exact hbefore.completes_iff hcurrent hrun
  · intro hnone
    rw [hnone] at hselects
    exact hselects

/-- The kernel thread yields with nobody else ready. -/
theorem not_completesWell : ∃ s s' : Kernel, kernelMachine.Reachable s ∧
    s.step (.run .threadYield) = some s' ∧ s'.outcome = .running ∧ ¬ s.CompletesWell s' := by
  have hfields : ((startKernel.steps (fun _ _ => true)
      (List.replicate 7 (.run .intEnable))).bind fun s =>
        (s.step (.run .threadYield)).map fun s' => (s'.outcome, s'.completions.head?)) =
          some (.running, some ⟨0, 1⟩) := by
    decide
  obtain ⟨s, hsteps, hs⟩ := Option.bind_eq_some_iff.mp hfields
  obtain ⟨s', hstep, hs'⟩ := Option.map_eq_some_iff.mp hs
  obtain ⟨hrun, hhead⟩ := Prod.mk.inj hs'
  refine ⟨s, s', reach_steps (fun _ _ _ => trivial) (fun _ _ _ _ h => h)
    (.start startKernel_start) hsteps, hstep, hrun, ?_⟩
  rintro ⟨c, kills, hc, -, hprev, -⟩
  rw [hc] at hhead
  obtain rfl := Option.some.inj hhead
  simp [Kernel.isThread] at hprev

/-- The kernel thread blocks in `thread_init`, and the idle thread is selected. -/
theorem completesWell_iff_run : ∃ s s' : Kernel,
    s.step (.run .intEnable) = some s' ∧ s.CompletesWell s' := by
  have hfields : (startKernel.step (.run .intEnable)).map (fun s' =>
      (s'.outcome, startKernel.selects (.run .intEnable))) = some (.running, some 2) := by
    decide
  obtain ⟨s', hstep, hs'⟩ := Option.map_eq_some_iff.mp hfields
  obtain ⟨hrun, hselects⟩ := Prod.mk.inj hs'
  exact ⟨startKernel, s', hstep,
    ((completesWell_iff (.start startKernel_start) hstep hrun).1 2 hselects).mpr (by decide)⟩

end NickOS3.Thread
