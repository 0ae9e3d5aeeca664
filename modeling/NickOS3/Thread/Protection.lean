import NickOS3.Thread.Levels
import NickOS3.Thread.Places

/-!
# Shared structures are worked on with interrupts off

What `thread_yield`, `schedule`, `thread_unblock`, `sema_down` and `sema_up` do to the heap
and the queues they do behind `int_disable`. `thread_create`, `sema_init` and `thread_sleep`
allocate, and `thread_create` appends to `all_threads`, with the flag of their caller.
-/

namespace NickOS3.Thread

open Foundation

/-- The calls that work on shared structures with the flag of their caller. -/
def KernelCall.Allocates : KernelCall → Prop
  | .threadCreate _ | .semaInit _ _ | .lockInit _ => True
  | .threadSleep _ ticks => ticks ≠ 0
  | _ => False

namespace Kernel

variable (s : Kernel)

/-- All work on shared structures so far was done with interrupts off. -/
def Protected : Prop := ∀ op ∈ s.sharedOps, op.2 = false

/-- A call that allocates with the flag of its caller is made with interrupts off. -/
def AllocatesOff (a : Action) : Prop :=
  ∀ call, a = .run call → s.place s.current = .user → call.Allocates → s.intFlag = false

/-- A thread in front of the `append` on `all_threads` is running with interrupts off. -/
def AppendOff : Prop :=
  ∀ t, t ≠ 0 → t ≤ s.numThreads → ∀ new, s.place t = .createAppend new →
    t = s.current ∧ s.inHandler t = false ∧ s.intFlag = false

variable {s} {s' u : Kernel}

theorem Protected.record (h : s.Protected) (hoff : s.intFlag = false) (op : SharedOp) :
    (s.record op).Protected := by
  intro e he
  rcases List.mem_cons.mp he with rfl | he
  · exact hoff
  · exact h e he

theorem Protected.appendReady (h : s.Protected) (hoff : s.intFlag = false) (t : Nat) :
    (s.appendReady t).Protected :=
  (h.record hoff .malloc).record hoff (.append .readyThreads)

theorem Protected.popReady (h : s.Protected) (hoff : s.intFlag = false) :
    s.popReady.Protected := by
  unfold Kernel.popReady
  split
  · exact h
  · exact h.record hoff (.pop .readyThreads)

theorem Protected.switchComplete (h : s.Protected) (hoff : s.intFlag = false) (prev : Nat) :
    (s.switchComplete prev).Protected := by
  unfold Kernel.switchComplete
  dsimp only
  split
  · exact (Protected.record h hoff (.remove .allThreads)).record hoff (.remove .readyThreads)
  · exact h

theorem Protected.schedule (h : s.Protected) (hoff : s.intFlag = false) :
    s.schedule.Protected := by
  have hpop := h.popReady hoff
  have hoff : s.popReady.intFlag = false := by rwa [popReady_eq]
  unfold Kernel.schedule getNextThread
  dsimp only
  repeat' split
  · exact hpop
  · exact hpop
  · exact hpop
  · exact Protected.switchComplete (s := { s.popReady with current := s.selected }) hpop hoff _
  · exact hpop.switchComplete hoff 0

theorem Protected.requeue (h : s.Protected) (hoff : s.intFlag = false) :
    s.requeue.Protected := by
  unfold Kernel.requeue
  split
  · exact h.appendReady hoff _
  · exact h

theorem Protected.yieldOff (h : s.Protected) (hoff : s.intFlag = false) :
    s.yieldOff.Protected := by
  apply Protected.schedule
  · exact Protected.requeue (s := s.setStatus s.current .ready) h hoff
  · simpa using hoff

theorem Protected.threadBlock (h : s.Protected) : s.threadBlock.Protected := by
  unfold Kernel.threadBlock
  split
  case isTrue => exact h
  case isFalse hoff =>
    exact Protected.schedule (s := s.setStatus s.current .blocked) h (by simpa using hoff)

theorem Protected.semaDownLoop (h : s.Protected) (hoff : s.intFlag = false) (r : SemaRef)
    (level : Bool) : (s.semaDownLoop r level).Protected := by
  unfold Kernel.semaDownLoop
  dsimp only
  split
  · exact Protected.threadBlock (s := ((s.record .malloc).setSema r _).goto _)
      (h.record hoff .malloc)
  · exact h

theorem Protected.semaDown (h : s.Protected) (r : SemaRef) : (s.semaDown r).Protected :=
  Protected.semaDownLoop (s := (s.enter .semaDown).intDisable) h rfl r _

theorem Protected.semaUp (h : s.Protected) (hrun : s.outcome = .running) (r : SemaRef) :
    (s.semaUp r).Protected := by
  cases hwaiters : (s.semas r).waiters with
  | nil =>
      rw [semaUp_empty hwaiters hrun]
      exact h
  | cons t rest =>
      cases hcheck : s.unblockCheck t with
      | none =>
          rw [semaUp_wake hwaiters hcheck hrun]
          intro e he
          simp only [List.mem_cons] at he
          rcases he with rfl | rfl | he
          · rfl
          · rfl
          · exact h e he
      | some p =>
          rw [semaUp_stop hwaiters hcheck]
          exact h

theorem Protected.unblockOff (h : s.Protected) (t : Nat) : (s.unblockOff t).Protected :=
  Protected.appendReady (s := s.intDisable) h rfl t

theorem Protected.threadUnblock (h : s.Protected) (t : Nat) (created : Bool) :
    (s.threadUnblock t created).Protected := by
  unfold Kernel.threadUnblock
  dsimp only
  split <;> exact h

theorem Protected.semaInit (h : s.Protected) (hoff : s.intFlag = false) (r : SemaRef)
    (value : Nat) : (s.semaInit r value).Protected := by
  intro e he
  have he : e = (.malloc, s.intFlag) ∨ e ∈ s.sharedOps := by simpa [Kernel.semaInit] using he
  rcases he with rfl | he
  · exact hoff
  · exact h e he

theorem Protected.sleepOff (h : s.Protected) (t : Nat) : (s.sleepOff t).Protected := by
  have happend : (s.intDisable.appendSleeper t).Protected :=
    (Protected.record (s := s.intDisable) h rfl .malloc).record rfl (.append .sleeperList)
  exact Protected.record (s := (s.intDisable.appendSleeper t).setStatus t .blocked) happend rfl
    (.remove .readyThreads)

theorem Protected.call (h : s.Protected) (hrun : s.outcome = .running) {c : KernelCall}
    (hok : c.Allocates → s.intFlag = false) (hcall : s.call c = some s') : s'.Protected := by
  cases c <;> simp only [Kernel.call, Option.ite_none_right_eq_some, Option.some.injEq] at hcall
  all_goals first | obtain rfl := hcall | obtain ⟨-, rfl⟩ := hcall
  case threadYield =>
    exact Protected.yieldOff (s := (s.enter .threadYield).intDisable.goto _) h rfl
  case threadBlock => exact Protected.threadBlock (s := s.goto .blocked) h
  case threadUnblock t => exact h.threadUnblock t false
  case threadCreate null =>
    exact Protected.record (s := s.enter .threadCreate) h (hok trivial) .getNextFreePhysicalPage
  case threadSleep t ticks =>
    unfold threadSleep
    repeat' split
    · exact h
    · exact h
    case _ hticks _ => exact h.record (hok hticks) .malloc
  case semaInit n value => exact h.semaInit (hok trivial) _ _
  case semaDown n => exact h.semaDown _
  case semaUp n => exact h.semaUp hrun _
  case lockInit l =>
    exact Protected.semaInit (s := (s.assignHolder l 0).setInside l []) h (hok trivial) _ _
  case lockAccquire l =>
    unfold lockAccquire
    dsimp only
    split <;> exact h
  case lockRelease l =>
    unfold lockRelease
    dsimp only
    split <;> exact h
  all_goals exact h

theorem Protected.advance (h : s.Protected) (hrun : s.outcome = .running) {c : KernelCall}
    (hok : s.place s.current = .user → c.Allocates → s.intFlag = false)
    (happend : ∀ new, s.place s.current = .createAppend new → s.intFlag = false)
    (hsusp : (s.place s.current).suspended = true → s.intFlag = false)
    (hadvance : s.advance c = some s') : s'.Protected := by
  cases hplace : s.place s.current
  all_goals simp only [Kernel.advance, hplace, Option.some.injEq] at hadvance
  case user => exact h.call hrun (hok hplace) hadvance
  all_goals subst hadvance
  case entry function => cases function <;> exact h
  case dying => exact Protected.schedule (s := s.intDisable.goto .dead) h rfl
  case initDown => exact h.semaDown _
  case waiting r level =>
    exact h.semaDownLoop (hsusp (by rw [hplace]; rfl)) r level
  case unblocking t created =>
    cases created <;> exact h.unblockOff t
  case createAppend new =>
    have hoff := happend new hplace
    exact (h.record hoff .malloc).record hoff (.append .allThreads)
  case createUnblock new => exact h.threadUnblock new true
  case sleeping t => exact h.sleepOff t
  case accquireDown l => exact h.semaDown _
  case releaseUp l =>
    have hup := h.semaUp hrun (.lock l)
    unfold releaseUp
    generalize s.semaUp (.lock l) = u at hup
    dsimp only
    split <;> exact hup
  case idleUp =>
    have hup := h.semaUp hrun .started
    unfold idleUp
    generalize s.semaUp .started = u at hup
    dsimp only
    split <;> exact hup
  case idleBlock => exact Protected.threadBlock (s := s.goto .idleHlt) h
  all_goals exact h

/-- Only `thread_create` leads to its `append`. -/
theorem call_createAppend {c : KernelCall} {new : Nat} (hv : s.Valid)
    (hplace : s.place s.current = .user) (hcall : s.call c = some s')
    (hnew : s'.place s.current = .createAppend new) :
    c.Allocates ∧ s'.current = s.current ∧
      s'.inHandler s.current = s.inHandler s.current ∧ s'.intFlag = s.intFlag := by
  have hne : s.current ≠ s.numThreads + 1 := by
    have hle := hv.current.2
    omega
  cases c <;> simp only [Kernel.call, Option.ite_none_right_eq_some, Option.some.injEq] at hcall
  all_goals first | obtain rfl := hcall | obtain ⟨-, rfl⟩ := hcall
  case threadCreate null =>
    refine ⟨trivial, rfl, ?_, ?_⟩
    · simp [threadCreate, hne]
    · cases hf : s.intFlag <;> simp [threadCreate, hf]
  case threadUnblock t =>
    unfold threadUnblock at hnew
    dsimp only at hnew
    split at hnew <;> simp [hplace] at hnew
  case threadSleep t ticks =>
    unfold threadSleep at hnew
    repeat' split at hnew
    all_goals simp [hplace] at hnew
  case lockAccquire l =>
    unfold lockAccquire at hnew
    dsimp only at hnew
    split at hnew <;> simp [hplace] at hnew
  case lockRelease l =>
    unfold lockRelease at hnew
    dsimp only at hnew
    split at hnew <;> simp [hplace] at hnew
  case semaDown n =>
    unfold semaDown semaDownLoop at hnew
    dsimp only at hnew
    split at hnew <;> simp [afterDown] at hnew
  all_goals simp [threadYield, semaInit, lockInit, runReturn, hplace] at hnew

theorem advance_createAppend {c : KernelCall} {new : Nat} (hv : s.Valid)
    (hadvance : s.advance c = some s') (hnew : s'.place s.current = .createAppend new) :
    s.place s.current = .user ∧ c.Allocates ∧ s'.current = s.current ∧
      s'.inHandler s.current = s.inHandler s.current ∧ s'.intFlag = s.intFlag := by
  cases hplace : s.place s.current
  all_goals simp only [Kernel.advance, hplace, Option.some.injEq] at hadvance
  case user => exact ⟨rfl, call_createAppend hv hplace hadvance hnew⟩
  all_goals subst hadvance
  case entry function => cases function <;> simp [run, hplace] at hnew
  case unblocking t created => cases created <;> simp [unblockReturn, unblockOff] at hnew
  case createUnblock t =>
    unfold threadUnblock at hnew
    dsimp only at hnew
    split at hnew <;> simp [hplace] at hnew
  case initDown =>
    unfold semaDown semaDownLoop at hnew
    dsimp only at hnew
    split at hnew <;> simp [afterDown] at hnew
  case accquireDown l =>
    unfold semaDown semaDownLoop at hnew
    dsimp only at hnew
    split at hnew <;> simp [afterDown] at hnew
  case waiting r level =>
    unfold semaDownLoop at hnew
    dsimp only at hnew
    split at hnew
    · simp at hnew
    · cases r <;> simp [afterDown] at hnew
  case releaseUp l =>
    unfold releaseUp at hnew
    dsimp only at hnew
    split at hnew <;> simp [hplace] at hnew
  case idleUp =>
    unfold idleUp at hnew
    dsimp only at hnew
    split at hnew <;> simp [hplace] at hnew
  all_goals simp [runEnd, yieldReturn, createAppend, sleepOff, setHolder, clearHolder,
    idleStart, hplace] at hnew

theorem AppendOff.step {a : Action} (h : s.AppendOff) (hv : s.Valid)
    (hok : s.AllocatesOff a) (hstep : s.step a = some s') : s'.AppendOff := by
  have hmoves := step_moves hv hstep
  intro t h0 hle new ht
  have hcur : t = s.current := by
    by_contra hne
    rcases hmoves.threads with hnum | ⟨hnum, function, -, hentry⟩
    · rw [hmoves.others t hne (by omega)] at ht
      exact hne (h t h0 (by omega) new ht).1
    · by_cases hnew : t = s.numThreads + 1
      · rw [hnew, hentry] at ht
        exact absurd ht nofun
      · rw [hmoves.others t hne (by omega)] at ht
        exact hne (h t h0 (by omega) new ht).1
  subst hcur
  have hold := h s.current hv.current.1 hv.current.2 new
  clear hmoves hle
  revert ht
  apply step_cases hstep
  · intro _ _ hflag ht
    rw [threadTick_place] at ht
    exact absurd (hold ht).2.2 (by simp [hflag])
  · intro _ hin ht
    exact absurd (hold ht).2.1 (by simp [hin])
  · rintro c s' rfl - hin hadvance ht
    obtain ⟨hplace, halloc, hcurrent, hhandler, hflag⟩ := advance_createAppend hv hadvance ht
    rw [hcurrent, hhandler, hflag]
    exact ⟨rfl, hin, hok c rfl hplace halloc⟩
  · exact fun _ _ ht => hold ht

theorem Protected.step {a : Action} (h : s.Protected) (happend : s.AppendOff) (hv : s.Valid)
    (hlevels : s.LevelInvariant) (hok : s.AllocatesOff a) (hstep : s.step a = some s') :
    s'.Protected := by
  apply step_cases hstep
  · intro _ _ _
    unfold threadTick
    dsimp only
    split
    · exact Protected.yieldOff (s := (s.interrupt.enter .threadYield).intDisable) h rfl
    · exact h
  · exact fun _ _ => h
  · rintro c s' rfl hrun hin hadvance
    apply h.advance hrun
    · exact hok c rfl
    · exact fun new hplace => (happend _ hv.current.1 hv.current.2 new hplace).2.2
    · exact (hlevels.levels hrun).off_of_suspended hin
    · exact hadvance
  · exact fun _ _ => h

theorem Start.appendOff (h : s.Start) : s.AppendOff := by
  intro t h0 hle new ht
  rw [h.numThreads] at hle
  obtain rfl | rfl : t = 1 ∨ t = 2 := by omega
  · rw [h.place₁] at ht
    exact absurd ht nofun
  · rw [h.place₂] at ht
    exact absurd ht nofun

end Kernel

/-- In a run in which `thread_create`, `sema_init`, `lock_init` and `thread_sleep` are called
with interrupts off, all work on shared structures is done with interrupts off. -/
theorem protected_of_allocatesOff {s : Kernel}
    (run : kernelMachine.Reach Kernel.AllocatesOff s) : s.Protected := by
  have hinv : s.Valid ∧ s.LevelInvariant ∧ s.AppendOff ∧ s.Protected := by
    apply run.invariant
    · intro s h
      refine ⟨h.valid, h.levelInvariant, h.appendOff, ?_⟩
      rw [Kernel.Protected, h.sharedOps]
      simp
    · rintro s a s' ⟨hv, hlevels, happend, hprotected⟩ hok hstep
      exact ⟨hv.step hstep, hlevels.step hv hstep, happend.step hv hok hstep,
        hprotected.step happend hv hlevels hok hstep⟩
  exact hinv.2.2.2

/-- The kernel thread creates a thread after `thread_init`, with interrupts enabled. -/
theorem not_protected : ∃ s, kernelMachine.Reachable s ∧ ¬ s.Protected := by
  have hfields : ((startKernel.steps (fun _ _ => true)
      (List.replicate 7 (.run .intEnable) ++ [.run (.threadCreate false)])).map fun s =>
        s.sharedOps.head?) = some (some (.getNextFreePhysicalPage, true)) := by
    decide
  obtain ⟨s, hsteps, hs⟩ := Option.map_eq_some_iff.mp hfields
  refine ⟨s, reach_steps (fun _ _ _ => trivial) (fun _ _ _ _ h => h)
    (.start startKernel_start) hsteps, ?_⟩
  intro h
  exact absurd (h _ (List.mem_of_head? hs)) nofun

instance (s : Kernel) : (a : Action) → Decidable (s.AllocatesOff a)
  | .tick | .heapWord _ => isTrue nofun
  | .run call =>
      have : Decidable call.Allocates := by
        cases call <;> unfold KernelCall.Allocates <;> infer_instance
      decidable_of_iff (s.place s.current = .user → call.Allocates → s.intFlag = false)
        ⟨fun h _ heq => Action.run.inj heq ▸ h, fun h => h call rfl⟩

/-- The kernel thread turns interrupts off and creates a thread. -/
theorem protected_of_allocatesOff_run : ∃ s : Kernel,
    s.sharedOps.length = 10 ∧ s.Protected := by
  have hfields : ((startKernel.steps (fun s a => decide (s.AllocatesOff a))
      (List.replicate 7 (.run .intEnable) ++ [.run .intDisable, .run (.threadCreate false),
        .run .intDisable, .run .intDisable, .run .intDisable])).map fun s =>
          s.sharedOps.length) = some 10 := by
    decide
  obtain ⟨s, hsteps, hs⟩ := Option.map_eq_some_iff.mp hfields
  have run : kernelMachine.Reach Kernel.AllocatesOff s :=
    reach_steps (fun _ _ h => of_decide_eq_true h) (fun _ _ _ _ h => h)
      (.start startKernel_start) hsteps
  exact ⟨s, hs, protected_of_allocatesOff run⟩

end NickOS3.Thread
