import NickOS3.Thread.SemaEffects
import NickOS3.Thread.Turns

/-!
# Waking the waiters of a semaphore

The waiters of a semaphore are a waiting line that `sema_up` serves: a pass through the loop
of `sema_down` joins it, and nobody withdraws.
-/

namespace NickOS3.Thread

open Foundation

namespace Kernel

variable (s : Kernel) (r : SemaRef)

/-- The step is `sema_up` on `r`, with more work outside of the queues and semaphores. -/
structure Ups (s' : Kernel) : Prop where
  outcome : s'.outcome = (s.semaUp r).outcome
  status : s'.status = (s.semaUp r).status
  readyThreads : s'.readyThreads = (s.semaUp r).readyThreads
  semas : s'.semas = (s.semaUp r).semas
  counts : s'.counts = (s.semaUp r).counts

/-- The first waiter is woken: it is ready and stands at the end of the ready queue. -/
structure Wakes (t : Nat) (s' : Kernel) : Prop where
  waiters : (s.semas r).waiters = t :: (s'.semas r).waiters
  blocked : s.status t = .blocked
  status : s'.status t = .ready
  ready : s'.readyThreads = s.readyThreads ++ [t]

variable {s r} {s' u : Kernel} {a : Action} {t : Nat} {k : SemaRef}

theorem Ups.refl : s.Ups r (s.semaUp r) := ⟨rfl, rfl, rfl, rfl, rfl⟩

theorem Ups.goto (h : s.Ups r u) (p : Place) : s.Ups r (u.goto p) :=
  ⟨h.outcome, h.status, h.readyThreads, h.semas, h.counts⟩

theorem Ups.setInside_leave (h : s.Ups r u) (l : Nat) (ts : List Nat) :
    s.Ups r (u.setInside l ts).leave :=
  ⟨h.outcome, h.status, h.readyThreads, h.semas, h.counts⟩

theorem semaDownLoop_ups (level : Bool) : ((u.semaDownLoop k level).counts r).ups =
    (u.counts r).ups := by
  unfold Kernel.semaDownLoop
  dsimp only
  split
  · simp
  · by_cases hr : r = k
    · subst hr
      simp
    · simp [hr]

theorem semaUp_ups (k : SemaRef) :
    ((s.semaUp k).counts r).ups = (s.counts r).ups ∨ s.Ups r (s.semaUp k) := by
  by_cases hr : r = k
  · subst hr
    exact .inr .refl
  · left
    unfold Kernel.semaUp
    rw [wakeWaiter_eq]
    dsimp only
    split
    · rfl
    · simp [hr]

/-- A call leaves the number of calls of `sema_up` on `r` alone, or it is one of them. -/
theorem call_ups {c : KernelCall} (hr : r ∈ s.initialised) (hcall : s.call c = some s') :
    (s'.counts r).ups = (s.counts r).ups ∨ s.Ups r s' := by
  cases c <;> simp only [Kernel.call, Option.ite_none_right_eq_some, Option.some.injEq] at hcall
  all_goals first | obtain rfl := hcall | obtain ⟨hknown, rfl⟩ := hcall
  case threadUnblock t =>
    unfold threadUnblock
    dsimp only
    split <;> exact .inl rfl
  case threadSleep t ticks =>
    unfold threadSleep
    repeat' split
    all_goals exact .inl rfl
  case semaInit n value =>
    have hne : r ≠ .sema n := fun h => hknown.2 (h ▸ hr)
    exact .inl (by simp [semaInit, hne])
  case lockInit l =>
    have hne : r ≠ .lock l := fun h => hknown (h ▸ hr)
    exact .inl (by simp [lockInit, semaInit, hne])
  case semaDown n => exact .inl (semaDownLoop_ups (u := (s.enter .semaDown).intDisable) _)
  case semaUp n => exact semaUp_ups _
  case lockAccquire l =>
    unfold lockAccquire
    dsimp only
    split <;> exact .inl rfl
  case lockRelease l =>
    unfold lockRelease
    dsimp only
    split <;> exact .inl rfl
  all_goals exact .inl (by simp [threadYield, threadCreate, runReturn])

theorem advance_ups {c : KernelCall} (hr : r ∈ s.initialised)
    (hadvance : s.advance c = some s') :
    (s'.counts r).ups = (s.counts r).ups ∨ s.Ups r s' := by
  cases hplace : s.place s.current
  all_goals simp only [Kernel.advance, hplace, Option.some.injEq] at hadvance
  case user => exact call_ups hr hadvance
  all_goals subst hadvance
  case entry function => cases function <;> exact .inl rfl
  case initDown => exact .inl (semaDownLoop_ups (u := (s.enter .semaDown).intDisable) _)
  case waiting k level => exact .inl (semaDownLoop_ups level)
  case unblocking t created => cases created <;> exact .inl rfl
  case createUnblock new =>
    unfold threadUnblock
    dsimp only
    split <;> exact .inl rfl
  case accquireDown l =>
    exact .inl (semaDownLoop_ups (u := (s.enter .semaDown).intDisable) _)
  case setHolder l => exact .inl (by simp [setHolder])
  case releaseUp l =>
    unfold releaseUp
    dsimp only
    split
    · exact semaUp_ups _
    · exact (semaUp_ups (.lock l)).imp id fun h => (h.setInside_leave l _).goto .user
  case idleUp =>
    unfold idleUp
    dsimp only
    split
    · exact semaUp_ups _
    · exact (semaUp_ups .started).imp id fun h => h.goto .idleLoop
  all_goals exact .inl (by simp [runEnd, yieldReturn, createAppend, sleepOff, clearHolder,
    idleStart])

theorem step_ups (hr : r ∈ s.initialised) (hstep : s.step a = some s') :
    (s'.counts r).ups = (s.counts r).ups ∨ s.Ups r s' := by
  apply step_cases hstep
  · intro _ _ _
    unfold threadTick
    dsimp only
    split
    · exact .inl (by simp)
    · exact .inl rfl
  · exact fun _ _ => .inl rfl
  · exact fun _ _ _ _ _ hadvance => advance_ups hr hadvance
  · exact fun _ _ => .inl rfl

/-- `sema_up` wakes the first waiter, if there is one. -/
theorem Ups.wakes (h : s.Ups r s') (hrun : s.outcome = .running)
    (hrun' : s'.outcome = .running) {rest : List Nat}
    (hwaiters : (s.semas r).waiters = t :: rest) : s.Wakes r t s' := by
  cases hcheck : s.unblockCheck t with
  | none =>
      have heq := semaUp_wake hwaiters hcheck hrun
      refine ⟨?_, (unblockCheck_eq_none.mp hcheck).2, ?_, ?_⟩
      · rw [h.semas, heq, hwaiters]
        simp
      · rw [h.status, heq]
        simp
      · rw [h.readyThreads, heq]
  | some p =>
      rw [h.outcome, semaUp_stop hwaiters hcheck] at hrun'
      exact absurd hrun' nofun

/-- What a step does to the waiters. -/
theorem step_waiters (hr : r ∈ s.initialised) (hrun : s.outcome = .running)
    (hstep : s.step a = some s') (hrun' : s'.outcome = .running) :
    ∃ changes : List (LineChange Nat),
      (s'.semas r).waiters = LineChange.applyAll (s.semas r).waiters changes ∧
      (s'.counts r).ups = (s.counts r).ups + LineChange.serves changes ∧
      (∀ t ∈ LineChange.served (s.semas r).waiters changes, s.Wakes r t s') ∧
      ∀ t, .withdraw t ∉ changes := by
  cases step_semaEffect (r := r) hstep with
  | panics p hpanic =>
      rw [hrun'] at hpanic
      exact absurd hpanic nofun
  | kept _ hsema hcount _ =>
      exact ⟨[], by rw [hsema]; rfl, by rw [hcount]; rfl, by simp [LineChange.served], by simp⟩
  | created value _ hfresh => exact absurd hr hfresh
  | taken _ _ hsema hcount =>
      exact ⟨[], by rw [hsema]; rfl, by rw [hcount]; rfl, by simp [LineChange.served], by simp⟩
  | queued _ _ hsema hcount =>
      exact ⟨[.join s.current], by rw [hsema]; rfl, by rw [hcount]; rfl,
        by simp [LineChange.served], by simp⟩
  | raised _ hsema hcount _ _ =>
      refine ⟨[.serve], by rw [hsema]; rfl, by rw [hcount]; rfl, fun t ht => ?_, by simp⟩
      have hups : s.Ups r s' := by
        refine (step_ups hr hstep).resolve_left fun hsame => ?_
        rw [hcount] at hsame
        exact absurd hsame (Nat.succ_ne_self _)
      cases hwaiters : (s.semas r).waiters with
      | nil => simp [LineChange.served, hwaiters] at ht
      | cons x rest =>
          obtain rfl : t = x := by simpa [LineChange.served, hwaiters, eq_comm] using ht
          exact hups.wakes hrun hrun' hwaiters

theorem step_initialised (hr : r ∈ s.initialised) (hstep : s.step a = some s')
    (hrun : s'.outcome = .running) : r ∈ s'.initialised := by
  cases step_semaEffect (r := r) hstep with
  | panics p hpanic =>
      rw [hrun] at hpanic
      exact absurd hpanic nofun
  | kept hinit => exact hinit.mpr hr
  | created _ _ hfresh => exact absurd hr hfresh
  | taken hinit => exact hinit.mpr hr
  | queued hinit => exact hinit.mpr hr
  | raised hinit => exact hinit.mpr hr

end Kernel

/-- A waiter is woken by the call of `sema_up` that follows as many others as waiters stood in
front of it, whatever the threads do in between. -/
theorem woken_in_turn {s s' : Kernel} {as : List Action} {r : SemaRef} {t : Nat}
    (hr : r ∈ s.initialised) (hwaits : t ∈ (s.semas r).waiters)
    (path : kernelMachine.Path (fun _ _ => True) s as s') (hrun : s'.outcome = .running)
    (hups : (s.semas r).waiters.idxOf t + (s.counts r).ups < (s'.counts r).ups) :
    kernelMachine.Meets (fun _ _ => True) (fun u _ u' => u.Wakes r t u') s as s' := by
  refine path.meets_of_work
    (fun u => r ∈ u.initialised ∧ t ∈ (u.semas r).waiters)
    (fun u => (u.semas r).waiters.idxOf t) (fun u => (u.counts r).ups)
    Kernel.running_of_step ?_ ⟨hr, hwaits⟩ hrun hups
  rintro u a u' ⟨hr, hwaits⟩ - hstep hrun
  obtain ⟨changes, hline, hcount, hserved, hleaves⟩ :=
    Kernel.step_waiters hr (Kernel.running_of_step _ _ _ hstep) hstep hrun
  rcases LineChange.served_or_moves_up hwaits (hleaves t) with hmem | ⟨hmem, hle⟩
  · exact .inl (hserved t hmem)
  · refine .inr ⟨⟨Kernel.step_initialised hr hstep hrun, hline ▸ hmem⟩, ?_⟩
    rw [hline, hcount]
    omega

/-- The kernel thread waits in `thread_init` until the idle thread raises `init_started`. -/
theorem woken_in_turn_started : ∃ s s' as, kernelMachine.Reachable s ∧
    kernelMachine.Meets (fun _ _ => True) (fun u _ u' => u.Wakes .started 1 u') s as s' := by
  have hfields : ((startKernel.steps (fun _ _ => true) [.run .intEnable]).bind fun s =>
      (s.steps (fun _ _ => true) (List.replicate 3 (.run .intEnable))).map fun s' =>
        (s.initialised, (s.semas .started).waiters, (s.counts .started).ups, s'.outcome,
          (s'.counts .started).ups)) = some ([.started], [1], 0, .running, 1) := by
    decide
  obtain ⟨s, hfirst, hs⟩ := Option.bind_eq_some_iff.mp hfields
  obtain ⟨s', hrest, hs'⟩ := Option.map_eq_some_iff.mp hs
  simp only [Prod.mk.injEq] at hs'
  obtain ⟨hinit, hwaiters, hups, hrun, hups'⟩ := hs'
  have path : kernelMachine.Path (fun _ _ => True) s _ s' :=
    Machine.Path.along (fun _ _ _ => trivial) (fun _ _ _ _ h => h) .refl hrest
  refine ⟨s, s', _, reach_steps (fun _ _ _ => trivial) (fun _ _ _ _ h => h)
    (.start startKernel_start) hfirst, woken_in_turn (r := .started) (t := 1) ?_ ?_ path hrun ?_⟩
  · rw [hinit]
    exact List.mem_singleton_self _
  · rw [hwaiters]
    exact List.mem_singleton_self _
  · rw [hwaiters, hups, hups']
    decide

end NickOS3.Thread
