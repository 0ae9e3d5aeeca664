import NickOS3.Thread.Effects

/-!
# What a step does to a semaphore

A step takes a unit, puts the running thread among the waiters, gives a unit back or leaves
the semaphore alone.
-/

namespace NickOS3.Thread

/-- The place of a thread that waits for the semaphore or has been woken by `sema_up`. -/
def Place.waits (r : SemaRef) : Place → Bool
  | .waiting k _ => decide (k = r)
  | _ => false

namespace Kernel

variable (s : Kernel) (r : SemaRef)

/-- What a step does to the semaphore `r`, and where the running thread goes on. -/
inductive SemaEffect : Kernel → Prop
  | panics {s' : Kernel} (p : Panic) (hpanic : s'.outcome = .panic p) : SemaEffect s'
  | kept {s' : Kernel} (hinit : r ∈ s'.initialised ↔ r ∈ s.initialised)
      (hsema : s'.semas r = s.semas r) (hcount : s'.counts r = s.counts r)
      (hplace : (s'.place s.current).waits r = (s.place s.current).waits r) : SemaEffect s'
  /-- `sema_init` -/
  | created {s' : Kernel} (value : Nat) (hvalue : value < 4294967296) (hfresh : r ∉ s.initialised)
      (hsema : s'.semas r = ⟨value, []⟩) (hcount : s'.counts r = ⟨value, 0, 0⟩)
      (hplace : s'.place s.current = s.place s.current) : SemaEffect s'
  /-- The end of `sema_down`. -/
  | taken {s' : Kernel} (hinit : r ∈ s'.initialised ↔ r ∈ s.initialised)
      (hvalue : (s.semas r).value ≠ 0)
      (hsema : s'.semas r = { s.semas r with value := (s.semas r).value - 1 })
      (hcount : s'.counts r = { s.counts r with downs := (s.counts r).downs + 1 })
      (hplace : (s'.place s.current).waits r = false) : SemaEffect s'
  /-- A pass through the loop of `sema_down`. -/
  | queued {s' : Kernel} (hinit : r ∈ s'.initialised ↔ r ∈ s.initialised)
      (hvalue : (s.semas r).value = 0)
      (hsema : s'.semas r = { s.semas r with waiters := (s.semas r).waiters ++ [s.current] })
      (hcount : s'.counts r = s.counts r)
      (hplace : (s'.place s.current).waits r = true)
      (hblock : ∃ u : Kernel, u.sched = s.sched ∧
        s' = (u.setStatus u.current .blocked).schedule) : SemaEffect s'
  /-- `sema_up` -/
  | raised {s' : Kernel} (hinit : r ∈ s'.initialised ↔ r ∈ s.initialised)
      (hsema : s'.semas r = ⟨u32 ((s.semas r).value + 1), (s.semas r).waiters.tail⟩)
      (hcount : s'.counts r = { s.counts r with ups := (s.counts r).ups + 1 })
      (hplace : (s.place s.current).waits r = false)
      (hplace' : (s'.place s.current).waits r = false) : SemaEffect s'

variable {s r} {s' u : Kernel}

theorem SemaEffect.semaDownLoop {k : SemaRef} {level : Bool} (hsched : u.sched = s.sched)
    (hinit : u.initialised = s.initialised) (hsemas : u.semas = s.semas)
    (hcounts : u.counts = s.counts)
    (hplace : k ≠ r → (s.place s.current).waits r = false) :
    s.SemaEffect r (u.semaDownLoop k level) := by
  have hcurrent : u.current = s.current := congrArg (·.current) hsched
  by_cases hk : k = r
  · subst hk
    unfold Kernel.semaDownLoop
    dsimp only
    split
    case isTrue hvalue =>
      unfold Kernel.threadBlock
      split
      case isTrue => exact .panics .blockEnabled (by simp)
      case isFalse =>
        apply SemaEffect.queued
        · simp [hinit]
        · rw [← hsemas]
          exact hvalue
        · simp [hsemas, hcurrent]
        · simp [hcounts]
        · simp [hcurrent, Place.waits]
        · refine ⟨_, ?_, rfl⟩
          exact hsched
    case isFalse hvalue =>
      apply SemaEffect.taken
      · simp [hinit]
      · rw [← hsemas]
        exact hvalue
      · simp [hsemas]
      · simp [hcounts]
      · cases k <;> simp [hcurrent, afterDown, Place.waits]
  · have hne : r ≠ k := Ne.symm hk
    unfold Kernel.semaDownLoop
    dsimp only
    split
    · apply SemaEffect.kept
      · simp [hinit]
      · simp [hsemas, hne]
      · simp [hcounts]
      · rw [hplace hk]
        simp [hcurrent, Place.waits, hk]
    · apply SemaEffect.kept
      · simp [hinit]
      · simp [hsemas, hne]
      · simp [hcounts, hne]
      · rw [hplace hk]
        cases k <;> simp [hcurrent, afterDown, Place.waits]

theorem SemaEffect.semaDown {k : SemaRef}
    (hplace : k ≠ r → (s.place s.current).waits r = false) : s.SemaEffect r (s.semaDown k) := by
  unfold Kernel.semaDown
  exact SemaEffect.semaDownLoop (u := (s.enter .semaDown).intDisable) rfl rfl rfl rfl hplace

/-- `sema_up`, at the end of a step or with more work. -/
theorem SemaEffect.semaUpThen {k : SemaRef} {f : Kernel → Kernel} (hrun : s.outcome = .running)
    (hplace : (s.place s.current).waits r = false)
    (hinit : ∀ u, (f u).initialised = u.initialised) (hsemas : ∀ u, (f u).semas = u.semas)
    (hcounts : ∀ u, (f u).counts = u.counts)
    (hplace' : ((f (s.semaUp k)).place s.current).waits r = false) :
    s.SemaEffect r (if (s.semaUp k).outcome ≠ .running then s.semaUp k
      else f (s.semaUp k)) := by
  have hup : (∃ p, (s.semaUp k).outcome = .panic p) ∨ (s.semaUp k).outcome = .running ∧
      (s.semaUp k).semas = Function.update s.semas k
        ⟨u32 ((s.semas k).value + 1), (s.semas k).waiters.tail⟩ ∧
      (s.semaUp k).counts = Function.update s.counts k
        { s.counts k with ups := (s.counts k).ups + 1 } := by
    cases hwaiters : (s.semas k).waiters with
    | nil =>
        rw [semaUp_empty hwaiters hrun]
        exact .inr ⟨hrun, rfl, rfl⟩
    | cons t rest =>
        cases hcheck : s.unblockCheck t with
        | none =>
            rw [semaUp_wake hwaiters hcheck hrun]
            exact .inr ⟨hrun, rfl, rfl⟩
        | some p =>
            rw [semaUp_stop hwaiters hcheck]
            exact .inl ⟨p, rfl⟩
  rcases hup with ⟨p, hp⟩ | ⟨hup, hsemas', hcounts'⟩
  · rw [if_pos (by simp [hp])]
    exact .panics p hp
  · rw [if_neg (by simp [hup])]
    by_cases hk : r = k
    · subst hk
      apply SemaEffect.raised
      · simp [hinit]
      · simp [hsemas, hsemas']
      · simp [hcounts, hcounts']
      · exact hplace
      · exact hplace'
    · apply SemaEffect.kept
      · simp [hinit]
      · simp [hsemas, hsemas', hk]
      · simp [hcounts, hcounts', hk]
      · rw [hplace, hplace']

theorem call_semaEffect {c : KernelCall} (hrun : s.outcome = .running)
    (hplace : s.place s.current = .user) (hcall : s.call c = some s') : s.SemaEffect r s' := by
  have hwaits : (s.place s.current).waits r = false := by
    rw [hplace]
    rfl
  cases c <;> simp only [Kernel.call, Option.ite_none_right_eq_some, Option.some.injEq] at hcall
  all_goals first | obtain rfl := hcall | obtain ⟨hknown, rfl⟩ := hcall
  case threadUnblock t =>
    unfold threadUnblock
    dsimp only
    split
    · exact .panics _ rfl
    · exact .kept (by simp) (by simp) (by simp) (by simp [hplace, Place.waits])
  case threadCreate null =>
    exact .kept (by simp [threadCreate]) (by simp [threadCreate]) (by simp [threadCreate])
      (by simp [threadCreate, hplace, Place.waits])
  case threadSleep t ticks =>
    unfold threadSleep
    repeat' split
    all_goals exact .kept (by simp) (by simp) (by simp) (by simp [hplace, Place.waits])
  case semaInit n value =>
    obtain ⟨hvalue, hfresh⟩ := hknown
    by_cases hr : r = .sema n
    · subst hr
      exact .created value hvalue hfresh (by simp [semaInit]) (by simp [semaInit])
        (by simp [semaInit])
    · exact .kept (by simp [semaInit, hr]) (by simp [semaInit, hr]) (by simp [semaInit, hr])
        (by simp [semaInit])
  case lockInit l =>
    by_cases hr : r = .lock l
    · subst hr
      exact .created 1 (by decide) hknown (by simp [lockInit, semaInit])
        (by simp [lockInit, semaInit]) (by simp [lockInit, semaInit])
    · exact .kept (by simp [lockInit, semaInit, hr]) (by simp [lockInit, semaInit, hr])
        (by simp [lockInit, semaInit, hr]) (by simp [lockInit, semaInit])
  case semaDown n => exact .semaDown fun _ => hwaits
  case semaUp n =>
    have h := SemaEffect.semaUpThen (k := .sema n) (f := id) hrun hwaits (fun _ => rfl)
      (fun _ => rfl) (fun _ => rfl) (by simpa using hwaits)
    simpa using h
  case lockAccquire l =>
    unfold lockAccquire
    dsimp only
    split
    · exact .panics _ rfl
    · exact .kept (by simp) (by simp) (by simp) (by simp [hplace, Place.waits])
  case lockRelease l =>
    unfold lockRelease
    dsimp only
    split
    · exact .panics _ rfl
    · exact .kept (by simp) (by simp) (by simp) (by simp [hplace, Place.waits])
  all_goals
    apply SemaEffect.kept
    all_goals simp [threadYield, runReturn, hplace, Place.waits]

theorem advance_semaEffect {c : KernelCall} (hrun : s.outcome = .running)
    (hadvance : s.advance c = some s') : s.SemaEffect r s' := by
  cases hplace : s.place s.current
  all_goals simp only [Kernel.advance, hplace, Option.some.injEq] at hadvance
  case user => exact call_semaEffect hrun hplace hadvance
  all_goals subst hadvance
  case waiting k level =>
    refine SemaEffect.semaDownLoop (u := s) rfl rfl rfl rfl fun hk => ?_
    simp [hplace, Place.waits, hk]
  all_goals
    have hwaits : (s.place s.current).waits r = false := by
      rw [hplace]
      rfl
  case entry function =>
    cases function with
    | null => exact .panics .nullFunction rfl
    | idle | code =>
        exact .kept (by simp [run]) (by simp [run]) (by simp [run])
          (by simp [run, hplace, Place.waits])
  case dead => exact .kept Iff.rfl rfl rfl rfl
  case initDown => exact .semaDown fun _ => hwaits
  case accquireDown l => exact .semaDown fun _ => hwaits
  case unblocking t created =>
    cases created
    all_goals
      apply SemaEffect.kept
      all_goals simp [unblockReturn, unblockOff, hplace, Place.waits]
  case createUnblock new =>
    unfold threadUnblock
    dsimp only
    split
    · exact .panics _ rfl
    · exact .kept (by simp) (by simp) (by simp) (by simp [hplace, Place.waits])
  case releaseUp l =>
    unfold releaseUp
    exact SemaEffect.semaUpThen (k := .lock l) (f := fun u =>
      (u.setInside l ((u.inside l).erase u.current)).leave.goto .user) hrun hwaits
      (fun _ => rfl) (fun _ => rfl) (fun _ => rfl) (by simp [Place.waits])
  case idleUp =>
    unfold idleUp
    exact SemaEffect.semaUpThen (k := .started) (f := fun u => u.goto .idleLoop) hrun hwaits
      (fun _ => rfl) (fun _ => rfl) (fun _ => rfl) (by simp [Place.waits])
  all_goals
    apply SemaEffect.kept
    all_goals simp [runEnd, yieldReturn, createAppend, sleepOff, setHolder, clearHolder,
      idleStart, hplace, Place.waits]

theorem step_semaEffect {a : Action} (hstep : s.step a = some s') : s.SemaEffect r s' := by
  apply step_cases hstep
  · intro _ _ _
    unfold threadTick
    dsimp only
    split
    · exact .kept (by simp) (by simp) (by simp) (by simp)
    · exact .kept Iff.rfl rfl rfl rfl
  · exact fun _ _ => .kept Iff.rfl rfl rfl rfl
  · exact fun _ _ _ hrun _ hadvance => advance_semaEffect hrun hadvance
  · exact fun _ _ => .kept Iff.rfl rfl rfl rfl

end Kernel

end NickOS3.Thread
