import NickOS3.Thread.Table

/-!
# The interrupt level across calls

The switch does not save the interrupt flag. A thread that is not running stands behind a
`schedule`, where the flag is off for whoever comes back, and each call in between has kept
the level of its caller, so it leaves with the flag as it was.
-/

namespace NickOS3.Thread

open Foundation

namespace Place

/-- The calls that a thread at this place has not returned from, the latest first. -/
def calls : Place → List CallName
  | .yielded _ => [.threadYield]
  | .waiting (.lock _) _ => [.semaDown, .lockAccquire]
  | .waiting _ _ => [.semaDown]
  | .unblocking _ false => [.threadUnblock]
  | .unblocking _ true => [.threadUnblock, .threadCreate]
  | .createAppend _ | .createUnblock _ => [.threadCreate]
  | .accquireDown _ | .setHolder _ => [.lockAccquire]
  | .clearHolder _ | .releaseUp _ => [.lockRelease]
  | _ => []

/-- Places behind a call of `schedule`, or in front of `run`. -/
def suspended : Place → Bool
  | .entry _ | .dead | .yielded _ | .blocked | .waiting _ _ | .idleHlt => true
  | _ => false

/-- The level that the code behind `schedule` sets again. -/
def level : Place → Bool
  | .yielded level | .waiting _ level => level
  | _ => false

end Place

/-- The calls of a thread with the flag when they were made: in the handler its
`thread_yield` comes on top, and the rest was interrupted with interrupts enabled. -/
def pendingAt (inHandler : Bool) (p : Place) (flag : Bool) : List PendingCall :=
  if inHandler then ⟨.threadYield, false⟩ :: p.calls.map fun name => ⟨name, true⟩
  else p.calls.map fun name => ⟨name, if p.suspended then p.level else flag⟩

namespace Kernel

variable (s : Kernel)

/-- The thread stands behind a call of `schedule`, in the handler or in its own code. -/
def Parked (t : Nat) : Prop := s.inHandler t ≠ (s.place t).suspended

/-- Each thread but the running one stands behind a call of `schedule`, with its calls. -/
def OthersParked : Prop :=
  ∀ t, t ≠ 0 → t ≤ s.numThreads → t ≠ s.current →
    s.Parked t ∧ s.pending t = pendingAt (s.inHandler t) (s.place t) false

/-- The flag is off behind `schedule`, and every thread has the calls of its place. -/
structure Levels : Prop where
  others : s.OthersParked
  handler : s.inHandler s.current = true → (s.place s.current).suspended = false
  off : s.Parked s.current → s.intFlag = false
  pending : s.pending s.current = pendingAt (s.inHandler s.current) (s.place s.current) s.intFlag

/-- The calls that have returned left the flag as it was, and none has reached `schedule`
with interrupts enabled. -/
structure LevelsKept : Prop where
  returned : ∀ c ∈ s.returned, c.before = c.after
  disabled : s.outcome ≠ .panic .schedulingEnabled

/-- What holds of levels in a run. -/
structure LevelInvariant : Prop where
  kept : s.LevelsKept
  levels : s.outcome = .running → s.Levels

/-! ## What leaves the other threads as they are -/

section Neutral

variable {s}

theorem OthersParked.congr {s' : Kernel} (h : s.OthersParked)
    (hnum : s'.numThreads = s.numThreads) (hcurrent : s'.current = s.current)
    (hin : ∀ t, t ≠ s.current → s'.inHandler t = s.inHandler t)
    (hplace : ∀ t, t ≠ s.current → s'.place t = s.place t)
    (hpending : ∀ t, t ≠ s.current → s'.pending t = s.pending t) : s'.OthersParked := by
  intro t h0 hle hne
  rw [hcurrent] at hne
  rw [hnum] at hle
  rw [Parked, hin t hne, hplace t hne, hpending t hne]
  exact h t h0 hle hne

end Neutral

section Schedule

variable {s}

theorem Levels.schedule (h : s.Levels) (hparked : s.Parked s.current) (hv : s.Valid) :
    s.schedule.Levels := by
  have hoff := h.off hparked
  have hall : ∀ t, t ≠ 0 → t ≤ s.numThreads →
      s.Parked t ∧ s.pending t = pendingAt (s.inHandler t) (s.place t) false := by
    intro t h0 hle
    by_cases hcur : t = s.current
    · subst hcur
      exact ⟨hparked, hoff ▸ h.pending⟩
    · exact h.others t h0 hle hcur
  have hcurrent : s.schedule.current ≠ 0 ∧ s.schedule.current ≤ s.numThreads := by
    rcases s.schedule_current with hcur | ⟨hcur, h0⟩
    · rw [hcur]
      exact hv.current
    · rw [hcur]
      exact hv.selected h0
  constructor
  · intro t h0 hle _
    simpa [Parked] using hall t h0 (by simpa using hle)
  · intro hin
    have hne := (hall _ hcurrent.1 hcurrent.2).1
    simp only [schedule_inHandler, schedule_place] at hin ⊢
    rw [Parked, hin] at hne
    simpa using hne.symm
  · intro _
    simpa using hoff
  · simpa [hoff] using (hall _ hcurrent.1 hcurrent.2).2

theorem LevelsKept.schedule (h : s.LevelsKept) (hoff : s.intFlag = false) :
    s.schedule.LevelsKept := by
  refine ⟨by simpa using h.returned, ?_⟩
  rcases s.schedule_outcome hoff with hout | ⟨hout, -⟩ | ⟨hout, -⟩
  · rw [hout]
    exact h.disabled
  · rw [hout]
    nofun
  · rw [hout]
    nofun

end Schedule

/-! ## The functions -/

section Functions

variable {s}

/-- A thread that goes on with the calls of its place. -/
theorem Levels.here (ho : s.OthersParked) (hin : s.inHandler s.current = false)
    (hsusp : (s.place s.current).suspended = false)
    (hpending : s.pending s.current =
      (s.place s.current).calls.map fun name => ⟨name, s.intFlag⟩) : s.Levels := by
  refine ⟨ho, fun _ => hsusp, ?_, ?_⟩
  · intro h
    rw [Parked, hin, hsusp] at h
    exact absurd rfl h
  · simp [pendingAt, hin, hsusp, hpending]

/-- A thread in front of its call of `schedule`. -/
theorem Levels.parked (ho : s.OthersParked) (hin : s.inHandler s.current = false)
    (hsusp : (s.place s.current).suspended = true) (hoff : s.intFlag = false)
    (hpending : s.pending s.current =
      (s.place s.current).calls.map fun name => ⟨name, (s.place s.current).level⟩) :
    s.Levels := by
  refine ⟨ho, fun h => ?_, fun _ => hoff, ?_⟩
  · rw [hin] at h
    exact absurd h nofun
  · simp [pendingAt, hin, hsusp, hpending]

theorem LevelInvariant.of_schedule (hkept : s.LevelsKept) (h : s.Levels)
    (hparked : s.Parked s.current) (hv : s.Valid) : s.schedule.LevelInvariant :=
  ⟨hkept.schedule (h.off hparked), fun _ => h.schedule hparked hv⟩

theorem LevelInvariant.yieldOff (hkept : s.LevelsKept) (h : s.Levels)
    (hparked : s.Parked s.current) (hv : s.Valid) : s.yieldOff.LevelInvariant := by
  apply LevelInvariant.of_schedule
  · exact ⟨by simpa using hkept.returned, by simpa using hkept.disabled⟩
  · refine ⟨h.others.congr ?_ ?_ ?_ ?_ ?_, ?_, ?_, ?_⟩
    · simp
    · simp
    · simp
    · simp
    · simp
    · simpa using h.handler
    · simpa [Parked] using h.off
    · simpa using h.pending
  · simpa [Parked] using hparked
  · apply Valid.requeue
    simpa using hv

theorem LevelInvariant.threadBlock (hkept : s.LevelsKept) (h : s.Levels)
    (hparked : s.Parked s.current) (hv : s.Valid) : s.threadBlock.LevelInvariant := by
  unfold Kernel.threadBlock
  rw [h.off hparked]
  apply LevelInvariant.of_schedule
  · exact ⟨hkept.returned, hkept.disabled⟩
  · exact ⟨h.others, h.handler, h.off, h.pending⟩
  · exact hparked
  · simpa using hv

/-- The loop of `sema_down`. -/
theorem LevelInvariant.semaDownLoop {r : SemaRef} {level : Bool}
    (hkept : s.LevelsKept) (ho : s.OthersParked) (hin : s.inHandler s.current = false)
    (hoff : s.intFlag = false) (hv : s.Valid)
    (hpending : s.pending s.current =
      (Place.waiting r level).calls.map fun name => ⟨name, level⟩) :
    (s.semaDownLoop r level).LevelInvariant := by
  unfold Kernel.semaDownLoop
  dsimp only
  split
  · apply LevelInvariant.threadBlock
    · exact ⟨hkept.returned, hkept.disabled⟩
    · apply Levels.parked
      · apply ho.congr <;> simp +contextual
      · simpa using hin
      · simp [Place.suspended]
      · simpa using hoff
      · simpa [Place.level] using hpending
    · simpa [Parked, Place.suspended] using hin
    · apply Valid.goto
      · simpa using hv
      · nofun
  · refine ⟨⟨?_, ?_⟩, fun _ => ?_⟩
    · have hlevel : (if level = true then true else false) = level := by cases level <;> rfl
      cases r <;> simpa [hoff, hpending, Place.calls, hlevel] using hkept.returned
    · simpa using hkept.disabled
    · apply Levels.here
      · apply ho.congr <;> simp +contextual
      · simpa using hin
      · cases r <;> simp [afterDown, Place.suspended]
      · cases r <;> simp [afterDown, Place.calls, hpending, hoff]

theorem LevelInvariant.semaDown {r : SemaRef} (hkept : s.LevelsKept)
    (ho : s.OthersParked) (hin : s.inHandler s.current = false) (hv : s.Valid)
    (hpending : s.pending s.current =
      (afterDown r).calls.map fun name => ⟨name, s.intFlag⟩) :
    (s.semaDown r).LevelInvariant := by
  apply LevelInvariant.semaDownLoop
  · exact ⟨by simpa using hkept.returned, by simpa using hkept.disabled⟩
  · apply ho.congr <;> simp +contextual
  · simpa using hin
  · simp
  · simpa using hv
  · cases r <;> simp [hpending, afterDown, Place.calls]

/-- `sema_up` returns with the flag and the calls as they were, or stops. -/
theorem semaUp_levels (r : SemaRef) (hkept : s.LevelsKept) (ho : s.OthersParked)
    (hrun : s.outcome = .running) :
    (s.semaUp r).LevelsKept ∧ (s.semaUp r).OthersParked ∧
      ((s.semaUp r).outcome = .running →
        (s.semaUp r).intFlag = s.intFlag ∧ (s.semaUp r).pending = s.pending) := by
  cases hwaiters : (s.semas r).waiters with
  | nil =>
      rw [semaUp_empty hwaiters hrun]
      exact ⟨⟨by simpa using hkept.returned, hkept.disabled⟩, ho, fun _ => ⟨rfl, rfl⟩⟩
  | cons t rest =>
      cases hcheck : s.unblockCheck t with
      | none =>
          rw [semaUp_wake hwaiters hcheck hrun]
          exact ⟨⟨by simpa using hkept.returned, hkept.disabled⟩, ho, fun _ => ⟨rfl, rfl⟩⟩
      | some p =>
          rw [semaUp_stop hwaiters hcheck]
          refine ⟨⟨hkept.returned, ?_⟩, ?_, nofun⟩
          · rcases unblockCheck_eq_some hcheck with rfl | rfl <;> nofun
          · apply ho.congr <;> simp +contextual

/-- The thread keeps the flag and goes on at a place with the calls that it has. -/
theorem LevelInvariant.goto {p : Place} (hkept : s.LevelsKept) (ho : s.OthersParked)
    (hin : s.inHandler s.current = false) (hsusp : p.suspended = false)
    (hpending : s.pending s.current = p.calls.map fun name => ⟨name, s.intFlag⟩) :
    (s.goto p).LevelInvariant := by
  refine ⟨⟨hkept.returned, hkept.disabled⟩, fun _ => Levels.here ?_ hin ?_ ?_⟩
  · apply ho.congr <;> simp +contextual
  · simpa using hsusp
  · simpa using hpending

theorem LevelInvariant.stop {p : Panic} (hkept : s.LevelsKept) (hp : p ≠ .schedulingEnabled) :
    (s.stop p).LevelInvariant := by
  refine ⟨⟨hkept.returned, ?_⟩, nofun⟩
  intro heq
  exact hp (Outcome.panic.inj heq)

theorem LevelsKept.enter (hkept : s.LevelsKept) (name : CallName) :
    (s.enter name).LevelsKept :=
  ⟨hkept.returned, hkept.disabled⟩

/-- A call that was made with the flag as it is returns. -/
theorem LevelsKept.leave (hkept : s.LevelsKept) {calls : List CallName}
    (hpending : s.pending s.current = calls.map fun name => ⟨name, s.intFlag⟩) :
    s.leave.LevelsKept := by
  refine ⟨?_, hkept.disabled⟩
  cases calls with
  | nil => simpa [hpending] using hkept.returned
  | cons name rest => simpa [hpending] using hkept.returned

theorem OthersParked.enter (ho : s.OthersParked) (name : CallName) :
    (s.enter name).OthersParked := by
  apply ho.congr <;> simp +contextual

theorem OthersParked.leave (ho : s.OthersParked) : s.leave.OthersParked := by
  apply ho.congr <;> simp +contextual

/-- `thread_unblock`, up to its checks. -/
theorem LevelInvariant.threadUnblock {t : Nat} {created : Bool} (hkept : s.LevelsKept)
    (ho : s.OthersParked) (hin : s.inHandler s.current = false)
    (hpending : s.pending s.current =
      if created then [⟨.threadCreate, s.intFlag⟩] else []) :
    (s.threadUnblock t created).LevelInvariant := by
  unfold Kernel.threadUnblock
  dsimp only
  split
  case h_1 p hcheck =>
    apply LevelInvariant.stop (hkept.enter _)
    rcases unblockCheck_eq_some hcheck with rfl | rfl <;> nofun
  case h_2 =>
    apply LevelInvariant.goto (hkept.enter _) (ho.enter _)
    · simpa using hin
    · rfl
    · cases created <;> simp [hpending, Place.calls]

/-- The rest of `thread_unblock`. -/
theorem LevelInvariant.unblockReturn {t : Nat} {created : Bool} (hkept : s.LevelsKept)
    (ho : s.OthersParked) (hin : s.inHandler s.current = false)
    (hpending : s.pending s.current =
      (Place.unblocking t created).calls.map fun name => ⟨name, s.intFlag⟩) :
    (s.unblockReturn t created).LevelInvariant := by
  have hflag : (s.unblockOff t).intFlag = s.intFlag := by
    cases hf : s.intFlag <;> simp [unblockOff, hf]
  have hsame : (s.unblockOff t).pending = s.pending := rfl
  have hcurrent : (s.unblockOff t).current = s.current := by simp [unblockOff]
  have hkept : (s.unblockOff t).LevelsKept :=
    ⟨by simpa [unblockOff] using hkept.returned, by simpa [unblockOff] using hkept.disabled⟩
  have ho : (s.unblockOff t).OthersParked := by
    apply ho.congr <;> simp [unblockOff]
  have hin : (s.unblockOff t).inHandler (s.unblockOff t).current = false := by
    simpa [unblockOff] using hin
  rw [← hsame, ← hcurrent, ← hflag] at hpending
  unfold Kernel.unblockReturn
  generalize s.unblockOff t = u at *
  cases created with
  | false =>
      apply LevelInvariant.goto (hkept.leave hpending) ho.leave
      · simpa using hin
      · rfl
      · simp [hpending, Place.calls]
  | true =>
      have hrest : u.leave.pending u.leave.current =
          [CallName.threadCreate].map fun name => ⟨name, u.leave.intFlag⟩ := by
        simp [hpending, Place.calls]
      apply LevelInvariant.goto ((hkept.leave hpending).leave hrest) ho.leave.leave
      · simpa using hin
      · rfl
      · simp [hpending, Place.calls]

/-- `thread_create`, up to the frames on the new stack. -/
theorem LevelInvariant.threadCreate {function : ThreadFunc} (hkept : s.LevelsKept)
    (ho : s.OthersParked) (hin : s.inHandler s.current = false) (hv : s.Valid)
    (hpending : s.pending s.current = []) :
    (s.threadCreate function).LevelInvariant := by
  have hne : s.current ≠ s.numThreads + 1 := by
    have hle := hv.current.2
    omega
  have hflag : (if s.intFlag = true then true else false) = s.intFlag := by
    cases s.intFlag <;> rfl
  apply LevelInvariant.goto
  · exact ⟨hkept.returned, hkept.disabled⟩
  · intro t h0 hle hcur
    by_cases hnew : t = s.numThreads + 1
    · subst hnew
      simp [Parked, pendingAt, Place.suspended, Place.calls]
    · have hold := ho t h0 (by simp at hle; omega) (by simpa using hcur)
      have hcur : t ≠ s.current := by simpa using hcur
      simpa [Parked, hnew, hcur] using hold
  · simpa [hne] using hin
  · rfl
  · simp [hne, hpending, Place.calls, hflag]

theorem LevelInvariant.releaseUp {l : Nat} (hkept : s.LevelsKept) (ho : s.OthersParked)
    (hin : s.inHandler s.current = false) (hrun : s.outcome = .running)
    (hpending : s.pending s.current = [⟨.lockRelease, s.intFlag⟩]) :
    (s.releaseUp l).LevelInvariant := by
  obtain ⟨hkept, ho, hsame⟩ := semaUp_levels (.lock l) hkept ho hrun
  have hin : (s.semaUp (.lock l)).inHandler (s.semaUp (.lock l)).current = false := by
    simpa using hin
  have hpending : (s.semaUp (.lock l)).outcome = .running →
      (s.semaUp (.lock l)).pending (s.semaUp (.lock l)).current =
        [CallName.lockRelease].map fun name => ⟨name, (s.semaUp (.lock l)).intFlag⟩ := by
    intro hout
    rw [(hsame hout).1, (hsame hout).2]
    simpa using hpending
  unfold Kernel.releaseUp
  generalize s.semaUp (.lock l) = u at *
  dsimp only
  split
  case isTrue hout => exact ⟨hkept, fun h => absurd h hout⟩
  case isFalse hout =>
    have hpending := hpending (by simpa using hout)
    apply LevelInvariant.goto
    · exact LevelsKept.leave (s := u.setInside l _) ⟨hkept.returned, hkept.disabled⟩ hpending
    · apply ho.congr <;> simp +contextual
    · simpa using hin
    · rfl
    · simp [hpending, Place.calls]

theorem LevelInvariant.idleUp (hkept : s.LevelsKept) (ho : s.OthersParked)
    (hin : s.inHandler s.current = false) (hrun : s.outcome = .running)
    (hpending : s.pending s.current = []) : s.idleUp.LevelInvariant := by
  obtain ⟨hkept, ho, hsame⟩ := semaUp_levels .started hkept ho hrun
  unfold Kernel.idleUp
  dsimp only
  split
  case isTrue hout => exact ⟨hkept, fun h => absurd h hout⟩
  case isFalse hout =>
    apply LevelInvariant.goto hkept ho
    · simpa using hin
    · rfl
    · rw [(hsame (by simpa using hout)).2]
      simpa [Place.calls] using hpending

/-- Setting up a semaphore touches neither the flag nor the calls. -/
theorem LevelInvariant.semaInit {r : SemaRef} {value : Nat} (hkept : s.LevelsKept)
    (h : s.Levels) : (s.semaInit r value).LevelInvariant := by
  refine ⟨⟨?_, ?_⟩, fun _ => ⟨?_, ?_, ?_, ?_⟩⟩
  · simpa [Kernel.semaInit] using hkept.returned
  · simpa [Kernel.semaInit] using hkept.disabled
  · apply h.others.congr <;> simp [Kernel.semaInit]
  · simpa [Kernel.semaInit] using h.handler
  · simpa [Kernel.semaInit, Parked] using h.off
  · simpa [Kernel.semaInit] using h.pending

theorem LevelInvariant.lockInit {l : Nat} (hkept : s.LevelsKept) (h : s.Levels) :
    (s.lockInit l).LevelInvariant := by
  apply LevelInvariant.semaInit
  · exact ⟨hkept.returned, hkept.disabled⟩
  · exact ⟨h.others, h.handler, h.off, h.pending⟩

/-- A call from a thread's own code. -/
theorem LevelInvariant.call {s' : Kernel} {c : KernelCall} (hkept : s.LevelsKept)
    (h : s.Levels) (hv : s.Valid) (hrun : s.outcome = .running)
    (hin : s.inHandler s.current = false) (hplace : s.place s.current = .user)
    (hcall : s.call c = some s') : s'.LevelInvariant := by
  have ho := h.others
  have hpending : s.pending s.current = [] := by
    simpa [hin, hplace, pendingAt, Place.calls] using h.pending
  have hhere : ∀ u : Kernel, u.LevelsKept → u.OthersParked → u.current = s.current →
      u.inHandler = s.inHandler → u.place = s.place → u.pending = s.pending →
      u.LevelInvariant := by
    intro u hk hou hc hi hp hq
    refine ⟨hk, fun _ => Levels.here hou ?_ ?_ ?_⟩
    · rw [hi, hc, hin]
    · rw [hp, hc, hplace]
      rfl
    · rw [hp, hq, hc, hplace, hpending]
      rfl
  cases c <;> simp only [Kernel.call, Option.ite_none_right_eq_some, Option.some.injEq] at hcall
  all_goals first | obtain rfl := hcall | obtain ⟨-, rfl⟩ := hcall
  case intDisable => exact hhere _ ⟨hkept.returned, hkept.disabled⟩ ho rfl rfl rfl rfl
  case intEnable => exact hhere _ ⟨hkept.returned, hkept.disabled⟩ ho rfl rfl rfl rfl
  case threadYield =>
    apply LevelInvariant.yieldOff
    · exact ⟨hkept.returned, hkept.disabled⟩
    · apply Levels.parked
      · apply ho.congr <;> simp +contextual
      · simpa using hin
      · simp [Place.suspended]
      · simp
      · simp [hpending, Place.calls, Place.level]
    · simpa [Parked, Place.suspended] using hin
    · apply Valid.goto
      · simpa using hv
      · simp [Place.thread]
  case threadBlock =>
    cases hf : s.intFlag with
    | true =>
        unfold Kernel.threadBlock
        rw [goto_intFlag, hf, if_pos rfl]
        exact LevelInvariant.stop ⟨hkept.returned, hkept.disabled⟩ (by simp)
    | false =>
        apply LevelInvariant.threadBlock
        · exact ⟨hkept.returned, hkept.disabled⟩
        · apply Levels.parked
          · apply ho.congr <;> simp +contextual
          · simpa using hin
          · simp [Place.suspended]
          · simpa using hf
          · simp [hpending, Place.calls]
        · simpa [Parked, Place.suspended] using hin
        · exact hv.goto (by simp [Place.thread])
  case threadUnblock t => exact LevelInvariant.threadUnblock hkept ho hin hpending
  case threadCreate null => exact LevelInvariant.threadCreate hkept ho hin hv hpending
  case threadSleep t ticks =>
    unfold threadSleep
    repeat' split
    · exact ⟨hkept, fun _ => h⟩
    · exact LevelInvariant.stop hkept (by simp)
    · exact LevelInvariant.goto ⟨hkept.returned, hkept.disabled⟩ ho hin rfl hpending
  case semaInit n value =>
    exact LevelInvariant.semaInit hkept h
  case semaDown n => exact LevelInvariant.semaDown hkept ho hin hv hpending
  case semaUp n =>
    obtain ⟨hk, hou, hsame⟩ := semaUp_levels (.sema n) hkept ho hrun
    refine ⟨hk, fun hout => ?_⟩
    exact (hhere _ hk hou (by simp) (by simp) (by simp) (hsame hout).2).levels hout
  case lockInit l => exact LevelInvariant.lockInit hkept h
  case lockAccquire l =>
    unfold lockAccquire
    dsimp only
    split
    · exact LevelInvariant.stop (hkept.enter _) (by simp)
    · apply LevelInvariant.goto (hkept.enter _) (ho.enter _) hin rfl
      simp [hpending, Place.calls]
  case lockRelease l =>
    unfold lockRelease
    dsimp only
    split
    · exact LevelInvariant.stop (hkept.enter _) (by simp)
    · apply LevelInvariant.goto (hkept.enter _) (ho.enter _) hin rfl
      simp [hpending, Place.calls]
  case returns => exact LevelInvariant.goto ⟨hkept.returned, hkept.disabled⟩ ho hin rfl hpending

/-- A thread that has been switched to, or goes on, takes its next step. -/
theorem LevelInvariant.advance {s' : Kernel} {c : KernelCall} (hkept : s.LevelsKept)
    (h : s.Levels) (hv : s.Valid) (hrun : s.outcome = .running)
    (hin : s.inHandler s.current = false) (hadvance : s.advance c = some s') :
    s'.LevelInvariant := by
  have ho := h.others
  have hoff := h.off
  have hpending := h.pending
  have hset : ∀ level : Bool, (if level = true then true else false) = level := by decide
  cases hplace : s.place s.current
  all_goals
    simp only [Kernel.advance, hplace, Option.some.injEq] at hadvance
    simp only [Parked, hin, hplace, pendingAt, Place.suspended, Bool.false_eq_true, ne_eq,
      not_true_eq_false, not_false_eq_true, forall_const, if_false, if_true,
      IsEmpty.forall_iff] at hoff hpending
  case user => exact LevelInvariant.call hkept h hv hrun hin hplace hadvance
  all_goals subst hadvance
  case entry function =>
    cases function with
    | null => exact LevelInvariant.stop hkept (by simp)
    | idle | code => exact LevelInvariant.goto ⟨hkept.returned, hkept.disabled⟩ ho hin rfl hpending
  case dying =>
    apply LevelInvariant.of_schedule
    · exact ⟨hkept.returned, hkept.disabled⟩
    · apply Levels.parked
      · apply ho.congr <;> simp +contextual
      · simpa using hin
      · simp [Place.suspended]
      · simp
      · simp [hpending, Place.calls]
    · simpa [Parked, Place.suspended] using hin
    · apply Valid.goto
      · simpa using hv
      · simp [Place.thread]
  case dead => exact ⟨⟨hkept.returned, by simp⟩, by simp⟩
  case initDown => exact LevelInvariant.semaDown hkept ho hin hv hpending
  case yielded level =>
    have hpending : (s.intSet level).pending (s.intSet level).current =
        [CallName.threadYield].map fun name => ⟨name, (s.intSet level).intFlag⟩ := by
      simpa [hoff, hset, Place.calls, Place.level] using hpending
    apply LevelInvariant.goto
    · exact LevelsKept.leave ⟨hkept.returned, hkept.disabled⟩ hpending
    · exact OthersParked.leave ho
    · simpa using hin
    · rfl
    · rw [leave_pending, leave_current, Function.update_self, hpending]
      rfl
  case blocked => exact LevelInvariant.goto hkept ho hin rfl hpending
  case waiting r level => exact LevelInvariant.semaDownLoop hkept ho hin hoff hv hpending
  case unblocking t created => exact LevelInvariant.unblockReturn hkept ho hin hpending
  case createAppend new =>
    exact LevelInvariant.goto ⟨hkept.returned, hkept.disabled⟩ ho hin rfl hpending
  case createUnblock new => exact LevelInvariant.threadUnblock hkept ho hin hpending
  case sleeping t =>
    apply LevelInvariant.goto
    · exact ⟨hkept.returned, hkept.disabled⟩
    · exact ho
    · exact hin
    · rfl
    · simpa [Place.calls] using hpending
  case accquireDown l => exact LevelInvariant.semaDown hkept ho hin hv hpending
  case setHolder l =>
    apply LevelInvariant.goto
    · exact LevelsKept.leave ⟨hkept.returned, hkept.disabled⟩ hpending
    · apply ho.congr <;> simp +contextual
    · simpa using hin
    · rfl
    · simp [hpending, Place.calls]
  case clearHolder l =>
    exact LevelInvariant.goto ⟨hkept.returned, hkept.disabled⟩ ho hin rfl hpending
  case releaseUp l => exact LevelInvariant.releaseUp hkept ho hin hrun hpending
  case idleStart => exact LevelInvariant.goto ⟨hkept.returned, hkept.disabled⟩ ho hin rfl hpending
  case idleUp => exact LevelInvariant.idleUp hkept ho hin hrun hpending
  case idleLoop => exact LevelInvariant.goto ⟨hkept.returned, hkept.disabled⟩ ho hin rfl hpending
  case idleBlock =>
    cases hf : s.intFlag with
    | true =>
        unfold Kernel.threadBlock
        rw [goto_intFlag, hf, if_pos rfl]
        exact LevelInvariant.stop ⟨hkept.returned, hkept.disabled⟩ (by simp)
    | false =>
        apply LevelInvariant.threadBlock
        · exact ⟨hkept.returned, hkept.disabled⟩
        · apply Levels.parked
          · apply ho.congr <;> simp +contextual
          · simpa using hin
          · simp [Place.suspended]
          · simpa using hf
          · simp [hpending, Place.calls]
        · simpa [Parked, Place.suspended] using hin
        · exact hv.goto (by simp [Place.thread])
  case idleHlt => exact LevelInvariant.goto ⟨hkept.returned, hkept.disabled⟩ ho hin rfl hpending

/-- The timer interrupts a thread with interrupts enabled. -/
theorem LevelInvariant.threadTick (hkept : s.LevelsKept) (h : s.Levels) (hv : s.Valid)
    (hflag : s.intFlag = true) : s.threadTick.LevelInvariant := by
  have hout : s.inHandler s.current = (s.place s.current).suspended := by
    by_contra hp
    rw [h.off hp] at hflag
    exact absurd hflag nofun
  have hin : s.inHandler s.current = false := by
    cases hin : s.inHandler s.current with
    | false => rfl
    | true => exact absurd (hout.symm.trans hin) (by simp [h.handler hin])
  have hsusp : (s.place s.current).suspended = false := hout.symm.trans hin
  have hpending := h.pending
  simp only [pendingAt, hin, hsusp, if_false, hflag, Bool.false_eq_true] at hpending
  unfold Kernel.threadTick
  dsimp only
  split
  · apply LevelInvariant.yieldOff
    · exact ⟨hkept.returned, hkept.disabled⟩
    · refine ⟨?_, fun _ => by simpa using hsusp, fun _ => rfl, ?_⟩
      · apply h.others.congr <;> simp +contextual
      · simp [pendingAt, hpending]
    · simp [Parked, hsusp]
    · simpa using hv
  · refine ⟨⟨hkept.returned, hkept.disabled⟩, fun _ => Levels.here ?_ ?_ ?_ ?_⟩
    · apply h.others.congr <;> simp +contextual
    · simp
    · simpa using hsusp
    · simpa using hpending

/-- A thread that a tick has stopped goes on with interrupts enabled, as it was. -/
theorem LevelInvariant.tickReturn (hkept : s.LevelsKept) (h : s.Levels)
    (hin : s.inHandler s.current = true) : s.tickReturn.LevelInvariant := by
  have hsusp := h.handler hin
  have hoff := h.off (by simp [Parked, hin, hsusp])
  have hpending := h.pending
  simp only [pendingAt, hin, if_true] at hpending
  refine ⟨⟨?_, ?_⟩, fun _ => Levels.here ?_ ?_ ?_ ?_⟩
  · simpa [Kernel.tickReturn, hpending, hoff] using hkept.returned
  · simpa [Kernel.tickReturn] using hkept.disabled
  · apply h.others.congr <;> simp +contextual [Kernel.tickReturn]
  · simp [Kernel.tickReturn]
  · simpa [Kernel.tickReturn] using hsusp
  · simp [Kernel.tickReturn, hpending]

end Functions

theorem Start.levelInvariant {s : Kernel} (h : s.Start) : s.LevelInvariant := by
  refine ⟨⟨?_, ?_⟩, fun _ => ?_⟩
  · simp [h.returned]
  · rw [h.outcome]
    nofun
  · apply Levels.here
    · intro t h0 hle hne
      rw [h.current] at hne
      rw [h.numThreads] at hle
      obtain rfl : t = 2 := by omega
      simp [Parked, h.inHandler, h.place₂, h.pending, pendingAt, Place.suspended, Place.calls]
    · exact h.inHandler _
    · rw [h.current, h.place₁]
      rfl
    · rw [h.current, h.place₁, h.pending]
      rfl

/-- One step keeps the levels. -/
theorem LevelInvariant.step {s s' : Kernel} {a : Action} (h : s.LevelInvariant)
    (hv : s.Valid) (hstep : s.step a = some s') : s'.LevelInvariant := by
  apply step_cases hstep
  · exact fun _ hrun hflag => LevelInvariant.threadTick h.kept (h.levels hrun) hv hflag
  · exact fun hrun hin => LevelInvariant.tickReturn h.kept (h.levels hrun) hin
  · exact fun c s' _ hrun hin hadvance =>
      LevelInvariant.advance h.kept (h.levels hrun) hv hrun hin hadvance
  · intro hrun st
    have hlevels := h.levels hrun
    exact ⟨⟨h.kept.returned, h.kept.disabled⟩, fun _ =>
      ⟨hlevels.others, hlevels.handler, hlevels.off, hlevels.pending⟩⟩

end Kernel

theorem levelInvariant_of_reach {allowed : Kernel → Action → Prop} {s : Kernel}
    (run : kernelMachine.Reach allowed s) : s.LevelInvariant := by
  have hinv : s.Valid ∧ s.LevelInvariant := by
    apply run.invariant
    · exact fun s h => ⟨h.valid, h.levelInvariant⟩
    · exact fun s a s' h _ hstep => ⟨h.1.step hstep, h.2.step h.1 hstep⟩
  exact hinv.2

/-- Behind `schedule` a thread finds the flag off. -/
theorem Kernel.Levels.off_of_suspended {s : Kernel} (h : s.Levels)
    (hin : s.inHandler s.current = false) (hsusp : (s.place s.current).suspended = true) :
    s.intFlag = false := by
  apply h.off
  rw [Kernel.Parked, hin, hsusp]
  decide

/-- In every run, each call that has returned left the interrupt flag as it was when the
call was made, and `schedule` was never reached with interrupts enabled. -/
theorem levelsKept_of_reach {s : Kernel} (run : kernelMachine.Reachable s) : s.LevelsKept :=
  (levelInvariant_of_reach run).kept

/-- The kernel thread's `sema_down` in `thread_init`, with its block and its return. -/
theorem levelsKept_of_reach_run : ∃ s : Kernel,
    s.returned.head? = some ⟨.semaDown, true, true⟩ ∧ s.LevelsKept := by
  have hfields : ((startKernel.steps (fun _ _ => true)
      (List.replicate 7 (.run .intEnable))).map fun s => s.returned.head?) =
        some (some ⟨.semaDown, true, true⟩) := by
    decide
  obtain ⟨s, hsteps, hs⟩ := Option.map_eq_some_iff.mp hfields
  have run : kernelMachine.Reachable s :=
    reach_steps (fun _ _ _ => trivial) (fun _ _ _ _ h => h) (.start startKernel_start) hsteps
  exact ⟨s, hs, levelsKept_of_reach run⟩

end NickOS3.Thread
