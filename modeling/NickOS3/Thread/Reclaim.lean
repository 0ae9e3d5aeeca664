import NickOS3.Thread.SchedulerInvariant

/-!
# Reclaiming a finished thread

`run` marks its thread as dying before it disables interrupts. A tick that ends the time
slice in between makes the thread ready again, and its last `schedule` panics. Otherwise the
thread that is scheduled next removes it, once.
-/

namespace NickOS3.Thread

open Foundation

namespace Kernel

variable (s : Kernel)

/-- An orderly step that puts no finished thread to sleep and is not a tick which ends the time
slice of a dying thread. -/
def EndsAtOnce (a : Action) : Prop :=
  s.Orderly a ∧ s.SleepsLive a ∧
    (a = .tick → s.place s.current = .dying → s.tickCount + 1 < TIME_SLICE)

/-- A dying thread is the one that runs, and it is still marked. -/
def DyingRuns : Prop := ∀ t, t ≠ 0 → t ≤ s.numThreads → s.place t = .dying →
  t = s.current ∧ s.status t = .dying

variable {s} {s' : Kernel} {a : Action}

theorem DyingRuns.step (h : s.DyingRuns) (hs : s.Settled)
    (hok : a = .tick → s.place s.current = .dying → s.tickCount + 1 < TIME_SLICE)
    (hstep : s.step a = some s') (hrun : s'.outcome = .running) : s'.DyingRuns := by
  have hv := hs.valid
  have hmoves := step_moves hv hstep
  have hgoes := step_goes hs.prepared.started
    (hs.prepared.used _ hv.current.1 hv.current.2) hstep
  have heffect := step_effect hv hs.prepared hstep
  intro t h0 hle hplace
  have hcur : t = s.current := by
    by_contra hcur
    rcases hmoves.threads with hnum | ⟨hnum, function, -, hentry⟩
    · rw [hmoves.others t hcur (by omega)] at hplace
      exact hcur (h t h0 (by omega) hplace).1
    · by_cases hnew : t = s.numThreads + 1
      · rw [hnew, hentry] at hplace
        exact absurd hplace nofun
      · rw [hmoves.others t hcur (by omega)] at hplace
        exact hcur (h t h0 (by omega) hplace).1
  subst hcur
  rcases hgoes.dying hplace with hdying | ⟨hstatus, hcurrent⟩
  · have hstatus := (h _ hv.current.1 hv.current.2 hdying).2
    cases heffect with
    | panics p hpanic => simp [hpanic] at hrun
    | overruns _ hover => simp [hover] at hrun
    | quiet _ hsched _ =>
        have hcurrent : s'.current = s.current := congrArg (·.current) hsched
        have hsame : s'.status = s.status := congrArg (·.status) hsched
        exact ⟨hcurrent.symm, hsame ▸ hstatus⟩
    | word st _ hsched _ =>
        have hcurrent : s'.current = s.current := congrArg (·.current) hsched
        have hsame : s'.status = Function.update s.status 0 st := congrArg (·.status) hsched
        rw [hsame, Function.update_of_ne h0]
        exact ⟨hcurrent.symm, hstatus⟩
    | appends new _ hne _ _ => exact absurd (hdying.symm.trans hne) nofun
    | sleeps t _ _ hne _ => exact absurd (hdying.symm.trans hne) nofun
    | idles _ hne _ => exact absurd (hdying.symm.trans hne) nofun
    | yields u _ _ htick _ _ =>
        obtain ⟨-, ha, hslice⟩ := htick hdying
        have hlt := hok ha hdying
        omega
    | ends u _ _ _ hdead _ =>
        rw [schedule_place, hdead] at hplace
        exact absurd hplace nofun
    | dies _ hne _ _ => exact absurd (hdying.symm.trans hne) nofun
    | creates _ hne _ _ => exact absurd hdying hne
    | wakes t _ hne _ _ _ => exact absurd hdying hne
    | blocks u _ _ hne _ _ => exact absurd hdying hne
  · exact ⟨hcurrent.symm, hstatus⟩

theorem Start.dyingRuns (h : s.Start) : s.DyingRuns := by
  intro t h0 hle hdying
  rw [h.numThreads] at hle
  obtain rfl | rfl : t = 1 ∨ t = 2 := by omega
  · rw [h.place₁] at hdying
    cases hdying
  · rw [h.place₂] at hdying
    cases hdying

/-- A thread that is dying goes on to its last `schedule` without a panic. -/
theorem Settled.dyingStep (h : s.Settled) (hplace : s.place s.current = .dying)
    (hstatus : s.status s.current = .dying) (hstep : s.step a = some s') : s.After a s' := by
  apply step_cases hstep
  · intro _ hrun _
    unfold threadTick
    dsimp only
    split
    case isTrue => exact h.afterYield hrun rfl id rfl
    case isFalse => exact .of_same hrun rfl rfl h.queues h.awake id (.inl rfl)
  · exact fun hrun _ => .of_same hrun rfl rfl h.queues h.awake id (.inl rfl)
  · intro c s' _ hrun _ hadvance
    simp only [Kernel.advance, hplace, Option.some.injEq] at hadvance
    subst hadvance
    exact (h.afterEnd (u := s.intDisable.goto .dead) hrun rfl hplace (by simp) hstatus rfl).1
  · intro hrun st
    have hsame : (s.setStatus 0 st).status s.current = s.status s.current := by
      rw [setStatus_status, Function.update_of_ne h.valid.current.1]
    refine .of_same hrun rfl rfl (h.queues.word st) ?_ id (.inl hsame)
    exact .inr (.inr ⟨hsame.trans hstatus, hplace⟩)

theorem Settled.lastStep (h : s.Settled) (hplace : s.place s.current = .dying)
    (hstatus : s.status s.current = .dying) (hin : s.inHandler s.current = false)
    {c : KernelCall} (hstep : s.step (.run c) = some s') : s.Ends s' := by
  simp only [Kernel.step, hin, Bool.false_eq_true, if_false, Option.ite_none_left_eq_some,
    Kernel.advance, hplace, Option.some.injEq, not_not] at hstep
  obtain ⟨hrun, rfl⟩ := hstep
  exact (h.afterEnd (a := .run c) (u := s.intDisable.goto .dead) hrun rfl hplace (by simp)
    hstatus rfl).2

variable (s)

/-- A thread whose function has returned goes on without a panic to its last `schedule`,
which has it removed from `all_threads`, and leaves the other threads in their lists. From
then on it has been killed once, and is neither dispatched nor listed. -/
structure Reclaimed : Prop where
  running : s.place s.current = .dying → ∀ a s', s.step a = some s' → s'.outcome = .running
  last : s.place s.current = .dying → s.inHandler s.current = false →
    ∀ c s', s.step (.run c) = some s' → s.allThreads.count s.current = 1 ∧ s.Ends s'
  dead : ∀ t, s.isThread t = true → s.place t = .dead → s.killed.count t = 1
  gone : ∀ t ∈ s.killed, t ≠ 0 → t ≠ s.current ∧ t ∉ s.readyThreads ∧ t ∉ s.allThreads

variable {s}

theorem Unslept.reclaimed (hslept : s.Unslept) (hdying : s.DyingRuns) : s.Reclaimed := by
  have h := hslept.settled
  have hcurrent := h.valid.current
  refine ⟨fun hplace a s' hstep => ?_, fun hplace hin c s' hstep => ⟨?_, ?_⟩,
    fun t ht hdead => ?_, fun t hk h0 => ?_⟩
  · have hstatus := (hdying _ hcurrent.1 hcurrent.2 hplace).2
    exact (h.dyingStep hplace hstatus hstep).running
  · have hnot : s.current ∉ s.killed := h.live (by rw [hplace]; exact nofun)
    exact (h.roster.listed.all s.current).trans (if_pos ⟨h.roster.listed.current, hnot⟩)
  · have hstatus := (hdying _ hcurrent.1 hcurrent.2 hplace).2
    exact h.lastStep hplace hstatus hin hstep
  · obtain ⟨h0, hle⟩ := isThread_iff.mp ht
    have hmem := h.dead t h0 hle hdead
    have hpos := List.count_pos_iff.mpr hmem
    have honce := h.once t h0
    omega
  · obtain ⟨hne, hready, -⟩ := h.queues.gone t ⟨hk, hslept.buried t hk h0⟩ h0
    refine ⟨hne, hready, ?_⟩
    have hcount := h.roster.listed.all t
    rw [if_neg fun hin => hin.2 hk] at hcount
    exact List.count_eq_zero.mp hcount

/-- `EndsAtOnce` as a test. -/
def endsAtOnce (s : Kernel) (a : Action) : Bool :=
  s.orderly a && s.sleepsLive a && match a with
    | .tick => decide (s.place s.current ≠ .dying ∨ s.tickCount + 1 < TIME_SLICE)
    | _ => true

theorem endsAtOnce_sound (h : s.endsAtOnce a = true) : s.EndsAtOnce a := by
  simp only [endsAtOnce, Bool.and_eq_true] at h
  refine ⟨orderly_sound h.1.1, sleepsLive_sound h.1.2, ?_⟩
  rintro rfl hdying
  exact (of_decide_eq_true h.2).resolve_left fun hne => hne hdying

end Kernel

/-- In a run in which no tick ends the time slice of a dying thread and threads are created
apart, a finished thread is reclaimed once. -/
theorem reclaimed_of_endsAtOnce {page : Nat → Nat} {s : Kernel}
    (run : kernelMachine.Reach (fun s a => s.EndsAtOnce a ∧ s.CreatesApart page a) s)
    (hpanic : ∀ p, s.outcome ≠ .panic p) : s.Reclaimed := by
  have hinv : s.outcome = .running ∧ s.Unslept ∧ s.DyingRuns ∨ ∃ p, s.outcome = .panic p := by
    apply run.invariant
    · exact fun s h => .inl ⟨h.outcome, h.unslept, h.dyingRuns⟩
    · rintro s a s' (⟨-, h, hdying⟩ | ⟨p, hp⟩) ⟨hok, -⟩ hstep
      · rcases h.step hok.1 hok.2.1 hstep with ⟨hrun, h'⟩ | hpanic
        · exact .inl ⟨hrun, h', hdying.step h.settled hok.2.2 hstep hrun⟩
        · exact .inr hpanic
      · have hnone : s.step a = none := by simp [Kernel.step, hp]
        cases hnone.symm.trans hstep
  rcases hinv with ⟨-, h, hdying⟩ | ⟨p, hp⟩
  · exact h.reclaimed hdying
  · exact absurd hp (hpanic p)

/-- The kernel thread creates a thread, and the thread's function returns. -/
def returnedThread : List Action :=
  List.replicate 7 (.run .intEnable) ++ createOff ++ [.run .threadYield, .run .intEnable,
    .run .returns]

/-- The time slice ends behind the mark, and the thread panics when it runs again. -/
theorem not_reclaimed : ∃ s, kernelMachine.Reachable s ∧ s.outcome = .running ∧
    ¬ s.Reclaimed := by
  have hfields : ((startKernel.steps (fun _ _ => true)
      (returnedThread ++ [.tick, .tick, .tick, .tick, .run .intEnable, .run .threadYield,
        .run .intEnable])).bind fun s => (s.step (.run .intEnable)).map fun s' =>
          (s.outcome, s.place s.current, s'.outcome)) =
            some (.running, .dying, .panic .stillRunning) := by
    decide +kernel
  obtain ⟨s, hsteps, hs⟩ := Option.bind_eq_some_iff.mp hfields
  obtain ⟨s', hstep, hs'⟩ := Option.map_eq_some_iff.mp hs
  simp only [Prod.mk.injEq] at hs'
  obtain ⟨hrun, hplace, hpanic⟩ := hs'
  refine ⟨s, reach_steps (fun _ _ _ => trivial) (fun _ _ _ _ h => h)
    (.start startKernel_start) hsteps, hrun, fun h => ?_⟩
  have hrun' := h.running hplace _ s' hstep
  rw [hpanic] at hrun'
  exact absurd hrun' nofun

/-- A thread returns, is ticked, and is reclaimed by the kernel thread. -/
theorem reclaimed_of_endsAtOnce_run : ∃ s : Kernel, s.place 3 = .dead ∧
    s.allThreads = [1, 2] ∧ s.killed.count 3 = 1 ∧ s.Reclaimed := by
  have hfields : ((startKernel.steps (fun s a => s.endsAtOnce a && s.createsApart id a)
      (returnedThread ++ [.tick, .run .intEnable])).map fun s =>
        (s.outcome, s.place 3, s.allThreads, s.isThread 3)) =
          some (.running, .dead, [1, 2], true) := by
    decide +kernel
  obtain ⟨s, hsteps, hs⟩ := Option.map_eq_some_iff.mp hfields
  simp only [Prod.mk.injEq] at hs
  obtain ⟨hrun, hdead, hall, hthread⟩ := hs
  have run : kernelMachine.Reach (fun s a => s.EndsAtOnce a ∧ s.CreatesApart id a) s := by
    refine reach_steps (fun s a h => ?_) (fun _ _ _ _ h => h) (.start startKernel_start) hsteps
    simp only [Bool.and_eq_true] at h
    exact ⟨Kernel.endsAtOnce_sound h.1, Kernel.createsApart_sound h.2⟩
  have h := reclaimed_of_endsAtOnce run (by simp [hrun])
  exact ⟨s, hdead, hall, h.dead 3 hthread hdead, h⟩

end NickOS3.Thread
