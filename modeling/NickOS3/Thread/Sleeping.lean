import NickOS3.Thread.Discipline
import NickOS3.Thread.Dispatch

/-!
# Sleepers in runs of the kernel

`thread_tick` does not call `sleep_tick`, so no tick wakes a thread that `thread_sleep` has put to
sleep. It keeps its time when the other threads leave it alone until its last tick and one of them
unblocks it in front of that tick.
-/

namespace NickOS3.Thread

open Foundation

namespace Kernel

variable (s : Kernel)

/-- `switch_complete` runs in `t`. -/
def Dispatches (s s' : Kernel) (t : Nat) : Prop :=
  ∃ c, s'.completions = c :: s.completions ∧ c.current = t

/-- The step puts `t` back into the ready queue: it unblocks `t`, or `t` runs and yields. -/
def makesReady (a : Action) (t : Nat) : Bool :=
  decide (s.unblocks a = some t) ||
    s.yields a && decide (t = s.current ∧ t ≠ s.idleThread)

/-- The thread that the rest of `thread_sleep`, behind `malloc`, puts to sleep. -/
def fallsAsleep : Action → Option Nat
  | .run _ =>
      match s.place s.current with
      | .sleeping t => if s.inHandler s.current then none else some t
      | _ => none
  | _ => none

variable {s} {s' : Kernel} {a : Action} {t : Nat}

/-! ## Who is dispatched -/

theorem Before.dispatches_iff {u : Kernel} (h : s.Before u)
    (hrun : u.schedule.outcome = .running) :
    s.Dispatches u.schedule t ↔ u.selected = t := by
  have hcompletion : ∃ prev, u.schedule.completions = ⟨prev, u.selected⟩ :: s.completions := by
    obtain ⟨-, -, ⟨hsame, heq⟩ | ⟨-, -, heq⟩⟩ := u.schedule_running hrun
    · rw [heq, switchComplete_eq, popReady_eq, ← h.completions, hsame]
      exact ⟨0, rfl⟩
    · rw [heq, switchComplete_eq, popReady_eq, ← h.completions]
      exact ⟨u.current, rfl⟩
  obtain ⟨prev, hcompletions⟩ := hcompletion
  constructor
  · rintro ⟨c, hc, rfl⟩
    rw [hcompletions] at hc
    exact congrArg Completion.current (List.cons.inj hc).1
  · rintro rfl
    exact ⟨⟨prev, u.selected⟩, hcompletions, rfl⟩

theorem step_dispatches_iff {a : Action} (hstep : s.step a = some s')
    (hrun : s'.outcome = .running) : s.Dispatches s' t ↔ s.selects a = some t := by
  have hselects := step_selects hstep hrun
  cases hs : s.selects a with
  | none =>
      rw [hs] at hselects
      refine iff_of_false ?_ nofun
      rintro ⟨c, hc, -⟩
      rw [hselects.1] at hc
      exact List.cons_ne_self c _ hc.symm
  | some next =>
      rw [hs] at hselects
      obtain ⟨u, hbefore, rfl, rfl⟩ := hselects
      rw [hbefore.dispatches_iff hrun, Option.some_inj]

theorem selects_cases (h : s.selects a = some t) :
    t = s.selected ∨ s.yields a = true ∧ t = s.requeue.selected := by
  have hdown : ∀ r, s.downSelects r = some t → t = s.selected := by
    intro r hr
    rw [downSelects, Option.ite_none_right_eq_some] at hr
    exact (Option.some.inj hr.2).symm
  have hblock : s.blockSelects = some t → t = s.selected := by
    intro hb
    rw [blockSelects, Option.ite_none_left_eq_some] at hb
    exact (Option.some.inj hb.2).symm
  cases a with
  | tick =>
      rw [selects, Option.ite_none_right_eq_some] at h
      exact .inr ⟨decide_eq_true h.1, (Option.some.inj h.2).symm⟩
  | run c =>
      rw [selects, Option.ite_none_left_eq_some] at h
      obtain ⟨hin, h⟩ := h
      unfold advanceSelects at h
      cases hplace : s.place s.current <;> rw [hplace] at h
      case user =>
        cases c with
        | threadYield =>
            exact .inr ⟨by simp [yields, hin, hplace], (Option.some.inj h).symm⟩
        | threadBlock => exact .inl (hblock h)
        | semaDown n => exact .inl (hdown _ h)
        | _ => exact (Option.some_ne_none _ h.symm).elim
      case dying => exact .inl (Option.some.inj h).symm
      case initDown => exact .inl (hdown _ h)
      case waiting r level => exact .inl (hdown _ h)
      case accquireDown l => exact .inl (hdown _ h)
      case idleBlock => exact .inl (hblock h)
      all_goals exact (Option.some_ne_none _ h.symm).elim
  | heapWord st => exact (Option.some_ne_none _ h.symm).elim

theorem selected_mem (hidle : t ≠ s.idleThread) (h : t = s.selected) : t ∈ s.readyThreads := by
  unfold selected at h
  cases hready : s.readyThreads with
  | nil =>
      rw [hready] at h
      exact absurd h hidle
  | cons n rest =>
      rw [hready] at h
      exact h ▸ List.mem_cons_self

theorem requeue_readyThreads : s.requeue.readyThreads =
    if s.current ≠ s.idleThread then s.readyThreads ++ [s.current] else s.readyThreads := by
  unfold requeue
  split <;> rfl

/-- A thread that is not in the ready queue is not dispatched, unless it is idle. -/
theorem not_dispatches (hready : t ∉ s.readyThreads) (hidle : t ≠ s.idleThread)
    (hmakes : s.makesReady a t = false) (hstep : s.step a = some s')
    (hrun : s'.outcome = .running) : ¬ s.Dispatches s' t := by
  rw [step_dispatches_iff hstep hrun]
  intro hselects
  rcases selects_cases hselects with hsel | ⟨hyields, hsel⟩
  · exact hready (selected_mem hidle hsel)
  · have hmem : t ∈ s.requeue.readyThreads :=
      selected_mem (by rw [requeue_idleThread]; exact hidle) hsel
    rw [requeue_readyThreads] at hmem
    have hcurrent : t = s.current := by
      split at hmem
      · exact List.mem_singleton.mp ((List.mem_append.mp hmem).resolve_left hready)
      · exact absurd hmem hready
    simp [makesReady, hyields, hcurrent ▸ hidle, hcurrent] at hmakes

/-! ## Who is ready -/

/-- The thread that a step unblocks is in the ready queue behind it. -/
theorem mem_ready_of_unblocks (h : s.unblocks a = some t) (hstep : s.step a = some s')
    (hrun : s'.outcome = .running) : t ∈ s'.readyThreads := by
  have hsemaUp : ∀ r, (s.semas r).waiters.head? = some t → s.outcome = .running →
      (s.semaUp r).outcome = .running → t ∈ (s.semaUp r).readyThreads := by
    intro r hhead hrunning hup
    cases hwaiters : (s.semas r).waiters with
    | nil =>
        rw [hwaiters] at hhead
        exact absurd hhead nofun
    | cons u rest =>
        rw [hwaiters] at hhead
        obtain rfl := Option.some.inj hhead
        cases hcheck : s.unblockCheck u with
        | none =>
            rw [semaUp_wake hwaiters hcheck hrunning]
            exact List.mem_append_right _ (List.mem_singleton_self u)
        | some p =>
            rw [semaUp_stop hwaiters hcheck] at hup
            exact absurd hup nofun
  have hrunning := running_of_step _ _ _ hstep
  unfold unblocks at h
  split at h
  case h_2 => exact absurd h nofun
  case h_1 c =>
    rw [Option.ite_none_left_eq_some] at h
    obtain ⟨hin, h⟩ := h
    simp only [Kernel.step, hin, Bool.false_eq_true, if_false, Option.ite_none_left_eq_some,
      not_not] at hstep
    obtain ⟨-, hstep⟩ := hstep
    split at h
    case h_1 u created hplace =>
      obtain rfl := Option.some.inj h
      simp only [Kernel.advance, hplace, Option.some.injEq] at hstep
      subst hstep
      cases created <;> simp [unblockReturn, unblockOff]
    case h_2 n hplace =>
      simp only [Kernel.advance, hplace, Kernel.call, Option.ite_none_right_eq_some,
        Option.some.injEq] at hstep
      obtain ⟨-, rfl⟩ := hstep
      exact hsemaUp _ h hrunning hrun
    case h_3 l hplace =>
      simp only [Kernel.advance, hplace, Option.some.injEq] at hstep
      subst hstep
      unfold releaseUp at hrun ⊢
      dsimp only at hrun ⊢
      split at hrun
      · exact absurd hrun ‹_›
      · rw [if_neg ‹_›, goto_readyThreads, leave_readyThreads, setInside_readyThreads]
        exact hsemaUp _ h hrunning (not_not.mp ‹_›)
    case h_4 hplace =>
      simp only [Kernel.advance, hplace, Option.some.injEq] at hstep
      subst hstep
      unfold idleUp at hrun ⊢
      dsimp only at hrun ⊢
      split at hrun
      · exact absurd hrun ‹_›
      · rw [if_neg ‹_›, goto_readyThreads]
        exact hsemaUp _ h hrunning (not_not.mp ‹_›)
    case h_5 => exact absurd h nofun

theorem yieldOff_of_yields (h : s.yields a = true) (hstep : s.step a = some s') :
    ∃ u : Kernel, u.outcome = .running ∧ u.intFlag = false ∧ u.sched = s.sched ∧
      s' = u.yieldOff := by
  have hrunning := running_of_step _ _ _ hstep
  unfold yields at h
  split at h
  · simp only [Kernel.step, hrunning, ne_eq, not_true_eq_false, if_false,
      Option.ite_none_right_eq_some, Option.some.injEq] at hstep
    obtain ⟨-, rfl⟩ := hstep
    refine ⟨(s.interrupt.enter .threadYield).intDisable, hrunning, rfl, rfl, ?_⟩
    exact if_pos (of_decide_eq_true h)
  · rw [Bool.and_eq_true, Bool.not_eq_true', decide_eq_true_eq] at h
    simp only [Kernel.step, hrunning, ne_eq, not_true_eq_false, if_false, h.1,
      Bool.false_eq_true, Kernel.advance, h.2, Kernel.call, Option.some.injEq] at hstep
    subst hstep
    exact ⟨(s.enter .threadYield).intDisable.goto (.yielded s.intFlag), hrunning, rfl, rfl, rfl⟩
  · exact (Bool.false_ne_true h).elim

theorem fallsAsleep_iff : s.fallsAsleep a = some t ↔
    s.Acts a ∧ s.place s.current = .sleeping t := by
  constructor
  · intro h
    unfold fallsAsleep at h
    split at h
    · split at h
      · rw [Option.ite_none_left_eq_some] at h
        obtain ⟨hin, h⟩ := h
        obtain rfl := Option.some.inj h
        exact ⟨⟨by simpa using hin, _, rfl⟩, ‹_›⟩
      · exact absurd h nofun
    · exact absurd h nofun
  · rintro ⟨⟨hin, c, rfl⟩, hplace⟩
    simp [fallsAsleep, hin, hplace]

theorem readyThreads_of_fallsAsleep (h : s.fallsAsleep a = some t) (hstep : s.step a = some s') :
    s'.readyThreads = s.readyThreads.erase t := by
  obtain ⟨⟨hin, c, rfl⟩, hplace⟩ := fallsAsleep_iff.mp h
  simp only [Kernel.step, hin, Bool.false_eq_true, if_false, Option.ite_none_left_eq_some,
    Kernel.advance, hplace, Option.some.injEq] at hstep
  obtain ⟨-, rfl⟩ := hstep
  rfl

/-- `schedule` takes the thread that it dispatches from the ready queue. -/
theorem mem_ready_schedule {u : Kernel} (h : u.sched.Leaving) (hl : u.sched.Listed)
    (hrun : u.schedule.outcome = .running) :
    t ∈ u.schedule.readyThreads ↔ t ∈ u.readyThreads ∧ t ≠ u.schedule.current := by
  have heq := sched_schedule hrun
  have hready : u.schedule.readyThreads = u.sched.readyThreads.tail :=
    (congrArg (·.readyThreads) heq).trans (h.reaped hl).1
  have hcurrent : u.schedule.current = u.sched.selected :=
    (congrArg (·.current) heq).trans u.sched.schedule_current
  rw [hready, hcurrent]
  constructor
  · intro ht
    have hne : t ≠ u.sched.selected := by
      rintro rfl
      exact h.selected_notMem hl ht
    exact ⟨List.mem_of_mem_tail ht, hne⟩
  · rintro ⟨ht, hne⟩
    exact (SchedView.mem_tail_iff hne).mpr ht

theorem Settled.mem_ready_yieldOff (h : s.Settled) {u : Kernel} (hsched : u.sched = s.sched)
    (hrun : u.yieldOff.outcome = .running) :
    t ∈ u.yieldOff.readyThreads ↔
      (t ∈ s.readyThreads ∨ t = s.current ∧ t ≠ s.idleThread) ∧ t ≠ u.yieldOff.current := by
  obtain ⟨hleaving, hlisted⟩ := h.leavingYield hsched
  have hqueue : (u.setStatus u.current .ready).requeue.readyThreads =
      s.sched.requeue.readyThreads := by
    have hrequeue := congrArg (·.readyThreads) (sched_requeue (u := u))
    rw [hsched] at hrequeue
    exact hrequeue
  rw [yieldOff, mem_ready_schedule hleaving hlisted hrun, hqueue]
  refine and_congr_left fun _ => ?_
  show t ∈ (if s.current ≠ s.idleThread then s.readyThreads ++ [s.current]
    else s.readyThreads) ↔ _
  split
  case isTrue hidle =>
    rw [List.mem_append, List.mem_singleton]
    exact or_congr_right ⟨fun heq => ⟨heq, heq ▸ hidle⟩, And.left⟩
  case isFalse hidle =>
    exact ⟨.inl, fun hmem => hmem.resolve_right fun heq => heq.2 (heq.1.trans (not_not.mp hidle))⟩

/-- What a step leaves in the ready queue of what was there. -/
theorem Settled.ready_stays (h : s.Settled) (heffect : s.Effect a s')
    (hrun : s'.outcome = .running) (ht : t ∈ s.readyThreads) (hcurrent : t ≠ s'.current)
    (hfalls : s.fallsAsleep a ≠ some t) : t ∈ s'.readyThreads := by
  cases heffect with
  | panics p hpanic => simp [hpanic] at hrun
  | overruns _ hover => simp [hover] at hrun
  | quiet _ hsched _ | word _ _ hsched _ | dies _ _ _ hsched | creates _ _ _ hsched
  | appends _ _ _ _ hsched | idles _ _ hsched =>
      have hready : s'.readyThreads = s.readyThreads := congrArg (·.readyThreads) hsched
      exact hready ▸ ht
  | wakes u _ _ _ _ hsched =>
      have hready : s'.readyThreads = s.readyThreads ++ [u] := congrArg (·.readyThreads) hsched
      exact hready ▸ List.mem_append_left _ ht
  | sleeps u _ hact hplace hsched =>
      have hready : s'.readyThreads = s.readyThreads.erase u := congrArg (·.readyThreads) hsched
      have hne : t ≠ u := by
        rintro rfl
        exact hfalls (fallsAsleep_iff.mpr ⟨hact, hplace⟩)
      exact hready ▸ (List.mem_erase_of_ne hne).mpr ht
  | yields u _ _ _ _ hsched =>
      exact (h.mem_ready_yieldOff hsched hrun).mpr ⟨.inl ht, hcurrent⟩
  | blocks u _ _ _ hbefore hsched =>
      obtain ⟨hleaving, hlisted⟩ := h.leavingBlock hbefore hsched
      have hready : u.readyThreads = s.readyThreads := congrArg (·.readyThreads) hsched
      exact (mem_ready_schedule hleaving hlisted hrun).mpr ⟨hready.symm ▸ ht, hcurrent⟩
  | ends u _ _ hplace _ hsched =>
      rcases h.awake with hrunning | ⟨-, hnot⟩ | ⟨hdying, -⟩
      · exact absurd (status_of_sched hsched hrunning) (u.schedule_running hrun).2.1
      · exact absurd hplace hnot
      · obtain ⟨hleaving, hlisted⟩ := h.leavingEnd hplace hdying hsched
        have hready : u.readyThreads = s.readyThreads := congrArg (·.readyThreads) hsched
        exact (mem_ready_schedule hleaving hlisted hrun).mpr ⟨hready.symm ▸ ht, hcurrent⟩

/-- What a step puts into the ready queue. -/
theorem Settled.ready_comes (h : s.Settled) (heffect : s.Effect a s')
    (hrun : s'.outcome = .running) (ht : t ∈ s'.readyThreads) :
    t ∈ s.readyThreads ∨ s.makesReady a t = true := by
  cases heffect with
  | panics p hpanic => simp [hpanic] at hrun
  | overruns _ hover => simp [hover] at hrun
  | quiet _ hsched _ | word _ _ hsched _ | dies _ _ _ hsched | creates _ _ _ hsched
  | appends _ _ _ _ hsched | idles _ _ hsched =>
      have hready : s'.readyThreads = s.readyThreads := congrArg (·.readyThreads) hsched
      exact .inl (hready ▸ ht)
  | wakes u _ _ _ hunblocks hsched =>
      have hready : s'.readyThreads = s.readyThreads ++ [u] := congrArg (·.readyThreads) hsched
      rw [hready] at ht
      refine (List.mem_append.mp ht).imp id fun hu => ?_
      rw [List.mem_singleton.mp hu, makesReady, hunblocks]
      simp
  | sleeps u _ _ _ hsched =>
      have hready : s'.readyThreads = s.readyThreads.erase u := congrArg (·.readyThreads) hsched
      exact .inl (List.mem_of_mem_erase (hready ▸ ht))
  | yields u _ _ _ hyields hsched =>
      refine ((h.mem_ready_yieldOff hsched hrun).mp ht).1.imp id fun hcurrent => ?_
      rw [makesReady, hyields, decide_eq_true hcurrent, Bool.true_and, Bool.or_true]
  | blocks u _ _ _ hbefore hsched =>
      obtain ⟨hleaving, hlisted⟩ := h.leavingBlock hbefore hsched
      have hready : u.readyThreads = s.readyThreads := congrArg (·.readyThreads) hsched
      exact .inl (hready ▸ ((mem_ready_schedule hleaving hlisted hrun).mp ht).1)
  | ends u _ _ hplace _ hsched =>
      rcases h.awake with hrunning | ⟨-, hnot⟩ | ⟨hdying, -⟩
      · exact absurd (status_of_sched hsched hrunning) (u.schedule_running hrun).2.1
      · exact absurd hplace hnot
      · obtain ⟨hleaving, hlisted⟩ := h.leavingEnd hplace hdying hsched
        have hready : u.readyThreads = s.readyThreads := congrArg (·.readyThreads) hsched
        exact .inl (hready ▸ ((mem_ready_schedule hleaving hlisted hrun).mp ht).1)

/-- The ready queue behind a step: who was there or comes back to it, but the thread that is
dispatched and the one that is put to sleep. -/
theorem Settled.mem_ready_iff (h : s.Settled) (hafter : s.After a s') (hstep : s.step a = some s') :
    t ∈ s'.readyThreads ↔ (t ∈ s.readyThreads ∨ s.makesReady a t = true) ∧ t ≠ s'.current ∧
      s.fallsAsleep a ≠ some t := by
  have hrun := hafter.running
  have heffect := step_effect h.valid h.prepared hstep
  constructor
  · intro ht
    refine ⟨h.ready_comes heffect hrun ht, ?_, fun hfalls => ?_⟩
    · rintro rfl
      exact hafter.queues.current ht
    · rw [readyThreads_of_fallsAsleep hfalls hstep] at ht
      have hcount := h.queues.count h.roster.listed (List.mem_of_mem_erase ht)
      have hzero : (s.readyThreads.erase t).count t = 0 := by
        rw [List.count_erase_self]
        exact Nat.sub_eq_zero_of_le (Nat.le_of_eq hcount)
      exact List.count_eq_zero.mp hzero ht
  · rintro ⟨hready | hmakes, hcurrent, hfalls⟩
    · exact h.ready_stays heffect hrun hready hcurrent hfalls
    · simp only [makesReady, Bool.or_eq_true, Bool.and_eq_true, decide_eq_true_eq] at hmakes
      rcases hmakes with hunblocks | ⟨hyields, hself⟩
      · exact mem_ready_of_unblocks hunblocks hstep hrun
      · obtain ⟨u, -, -, hsched, rfl⟩ := yieldOff_of_yields hyields hstep
        exact (h.mem_ready_yieldOff hsched hrun).mpr ⟨.inr hself, hcurrent⟩

/-! ## Who runs behind a tick -/

theorem current_of_selects (h : s.selects a = some t) (hstep : s.step a = some s')
    (hrun : s'.outcome = .running) : s'.current = t := by
  have hselects := step_selects hstep hrun
  rw [h] at hselects
  obtain ⟨u, -, rfl, rfl⟩ := hselects
  have heq := sched_schedule hrun
  exact (congrArg (·.current) heq).trans u.sched.schedule_current

theorem current_of_tick (hslice : s.tickCount + 1 < TIME_SLICE) (hstep : s.step .tick = some s') :
    s'.current = s.current := by
  have hrunning := running_of_step _ _ _ hstep
  simp only [Kernel.step, hrunning, ne_eq, not_true_eq_false, if_false,
    Option.ite_none_right_eq_some, Option.some.injEq] at hstep
  obtain ⟨-, rfl⟩ := hstep
  have hnot : ¬ s.interrupt.tickCount ≥ TIME_SLICE := Nat.not_le.mpr hslice
  rw [threadTick, if_neg hnot]
  rfl

/-- A tick that ends the time slice dispatches the first thread of the ready queue. -/
theorem current_of_preempts {n : Nat} (hslice : ¬ s.tickCount + 1 < TIME_SLICE)
    (hhead : s.readyThreads.head? = some n) (hstep : s.step .tick = some s')
    (hrun : s'.outcome = .running) : s'.current = n := by
  refine current_of_selects ?_ hstep hrun
  have hselected : s.requeue.selected = n := by
    unfold selected
    rw [requeue_readyThreads]
    split
    · rw [List.head?_append, hhead]
      rfl
    · rw [hhead]
      rfl
  rw [selects, if_pos (Nat.not_lt.mp hslice), hselected]

end Kernel

/-! ## Runs with sleepers -/

/-- The unit of a duration, `UNIT_TICK` or `UNIT_SEC`. -/
inductive SleepUnit
  | tick
  | sec

/-- How many ticks a duration is. -/
def SleepUnit.ticks : SleepUnit → Nat → Nat
  | .tick, n => n
  | .sec, n => 18 * n

/-- A thread that sleeps, with the calls of `thread_tick` until it has to be ready. It is woken
when it has come back to the ready queue and neither run nor been put to sleep since. -/
structure Sleeping where
  thread : Nat
  left : Nat
  woken : Bool
  deriving DecidableEq

namespace Sleeping

variable (e : Sleeping)

/-- A sleeper is not dispatched as long as more than one tick is left, and behind the last one it
is ready; the kernel goes on. -/
def Kept (s : Kernel) (a : Action) (s' : Kernel) : Prop :=
  s'.outcome = .running ∧
    if e.left = 1 then a = .tick → e.thread ∈ s'.readyThreads ∧ s'.status e.thread = .ready
    else ¬ s.Dispatches s' e.thread

/-- The sleeper behind a step. -/
def pass (s : Kernel) (a : Action) (s' : Kernel) : Sleeping :=
  { e with
    woken := (e.woken || s.makesReady a e.thread) &&
      decide (e.thread ≠ s'.current ∧ s.fallsAsleep a ≠ some e.thread) }

/-- Nobody wakes the sleeper before its last tick is the next one, and that tick finds it woken
or preempts it; when it ends the time slice, another thread is first in the ready queue. -/
structure LeftAlone (s : Kernel) (a : Action) : Prop where
  idle : e.thread ≠ s.idleThread
  asleep : e.left ≠ 1 → s.makesReady a e.thread = false
  woken : e.left = 1 → a = .tick →
    if s.tickCount + 1 < TIME_SLICE then e.woken = true
    else (e.woken = true ∨ e.thread = s.current) ∧
      ∃ n, s.readyThreads.head? = some n ∧ n ≠ e.thread

/-- A sleeper is woken when it is in the ready queue, and not before its last tick is next. -/
structure Holds (s : Kernel) : Prop where
  ready : e.woken = true ↔ e.thread ∈ s.readyThreads
  early : e.left ≠ 1 → e.woken = false

variable {e} {s s' : Kernel} {a : Action}

theorem Holds.notMem (h : e.Holds s) (hleft : e.left ≠ 1) : e.thread ∉ s.readyThreads := by
  intro hready
  exact absurd ((h.early hleft).symm.trans (h.ready.mpr hready)) nofun

/-- The last tick of a sleeper. -/
theorem LeftAlone.ready_at_tick (h : e.LeftAlone s .tick) (hlast : e.left = 1) (hs : s.Settled)
    (hholds : e.Holds s) (hafter : s.After .tick s') (hstep : s.step .tick = some s') :
    e.thread ∈ s'.readyThreads := by
  have hwoken := h.woken hlast rfl
  rw [hs.mem_ready_iff hafter hstep]
  by_cases hslice : s.tickCount + 1 < TIME_SLICE
  · rw [if_pos hslice] at hwoken
    have hready := hholds.ready.mp hwoken
    refine ⟨.inl hready, fun heq => ?_, nofun⟩
    rw [heq, Kernel.current_of_tick hslice hstep] at hready
    exact hs.queues.current hready
  · rw [if_neg hslice] at hwoken
    obtain ⟨hfrom, n, hhead, hne⟩ := hwoken
    refine ⟨hfrom.imp hholds.ready.mp fun hcurrent => ?_, fun heq => ?_, nofun⟩
    · have hyields : s.yields .tick = true := decide_eq_true (Nat.not_lt.mp hslice)
      simp [Kernel.makesReady, hyields, hcurrent, hcurrent ▸ h.idle]
    · exact hne (heq.trans (Kernel.current_of_preempts hslice hhead hstep hafter.running)).symm

theorem LeftAlone.kept (h : e.LeftAlone s a) (hs : s.Settled) (hs' : s'.Settled)
    (hholds : e.Holds s) (hafter : s.After a s') (hstep : s.step a = some s') :
    e.Kept s a s' := by
  refine ⟨hafter.running, ?_⟩
  split
  case isTrue hlast =>
    rintro rfl
    have hready := h.ready_at_tick hlast hs hholds hafter hstep
    exact ⟨hready, hs'.queues.ready_of_mem hs'.roster.listed hready⟩
  case isFalse hleft =>
    exact Kernel.not_dispatches (hholds.notMem hleft) h.idle (h.asleep hleft) hstep hafter.running

theorem Holds.pass (h : e.Holds s) (halone : e.LeftAlone s a) (hs : s.Settled)
    (hafter : s.After a s') (hstep : s.step a = some s') : (e.pass s a s').Holds s' := by
  constructor
  · show ((e.woken || s.makesReady a e.thread) &&
      decide (e.thread ≠ s'.current ∧ s.fallsAsleep a ≠ some e.thread)) = true ↔ _
    rw [hs.mem_ready_iff hafter hstep, Bool.and_eq_true, Bool.or_eq_true, decide_eq_true_eq,
      h.ready]
    rfl
  · intro hleft
    show ((e.woken || s.makesReady a e.thread) && _) = false
    rw [h.early hleft, halone.asleep hleft]
    rfl

/-- Whoever is put to sleep leaves the ready queue. -/
theorem holds_of_fallsAsleep {t left : Nat} (hfalls : s.fallsAsleep a = some t) (hs : s.Settled)
    (hafter : s.After a s') (hstep : s.step a = some s') : Holds ⟨t, left, false⟩ s' := by
  refine ⟨iff_of_false nofun fun hready => ?_, fun _ => rfl⟩
  exact ((hs.mem_ready_iff hafter hstep).mp hready).2.2 hfalls

end Sleeping

namespace Kernel

variable (s : Kernel)

/-- The `thread_sleep` that a step calls, with its duration. -/
def sleepCall : Action → Option (Nat × Nat)
  | .run (.threadSleep t ticks) =>
      if s.inHandler s.current = false ∧ s.place s.current = .user then some (t, ticks) else none
  | _ => none

/-- The ticks that the call asks for, when its thread is running or ready. -/
def asks (unit : SleepUnit) (t n : Nat) : Option Nat :=
  if s.isThread t ∧ 0 < n ∧ (t = s.current ∨ s.status t = .ready) then some (unit.ticks n)
  else none

end Kernel

/-- A step, with the unit of its `thread_sleep` if it calls it. -/
structure SleepAction where
  action : Action
  unit : SleepUnit

/-- The kernel, how long the latest `thread_sleep` of each thread is to last, who sleeps, and
whether all sleepers so far have slept as asked. -/
structure SleepRun where
  kernel : Kernel
  asked : Nat → Option Nat
  asleep : List Sleeping
  kept : Prop

namespace SleepRun

variable (r : SleepRun)

/-- A tick counts down, and who has been ready behind the last one does not sleep any longer. -/
def counted (a : Action) (s' : Kernel) : List Sleeping :=
  match a with
  | .tick => (r.asleep.filter (·.left ≠ 1)).map fun e =>
      { e.pass r.kernel .tick s' with left := e.left - 1 }
  | a => r.asleep.map fun e => e.pass r.kernel a s'

/-- Who falls asleep in a step. -/
def falls (a : Action) : List Sleeping :=
  match r.kernel.fallsAsleep a with
  | some t => ((r.asked r.kernel.current).map fun left => ⟨t, left, false⟩).toList
  | none => []

/-- The sleepers behind a step of the kernel to `s'`. -/
def next (x : SleepAction) (s' : Kernel) : SleepRun where
  kernel := s'
  asked :=
    match r.kernel.sleepCall x.action with
    | some (t, n) => Function.update r.asked r.kernel.current (r.kernel.asks x.unit t n)
    | none => r.asked
  asleep := r.counted x.action s' ++ r.falls x.action
  kept := r.kept ∧ ∀ e ∈ r.asleep, e.Kept r.kernel x.action s'

def advance (x : SleepAction) : Option SleepRun := (r.kernel.step x.action).map (r.next x)

/-- Every sleeper is left alone in the step. -/
def LeavesAlone (x : SleepAction) : Prop := ∀ e ∈ r.asleep, e.LeftAlone r.kernel x.action

end SleepRun

/-- Runs of the kernel with the sleepers in view. -/
def sleepMachine : Machine SleepRun SleepAction where
  start r := r.kernel.Start ∧ (∀ u, r.asked u = none) ∧ r.asleep = [] ∧ r.kept
  step r x r' := r.advance x = some r'

namespace SleepRun

variable {r r' : SleepRun} {x : SleepAction}

theorem holds_counted {a : Action} {s' : Kernel} (hs : r.kernel.Settled)
    (hafter : r.kernel.After a s') (hstep : r.kernel.step a = some s')
    (halone : ∀ e ∈ r.asleep, e.LeftAlone r.kernel a) (h : ∀ e ∈ r.asleep, e.Holds r.kernel) :
    ∀ e ∈ r.counted a s', e.Holds s' := by
  have hpass : ∀ e ∈ r.asleep, (e.pass r.kernel a s').Holds s' := fun e he =>
    (h e he).pass (halone e he) hs hafter hstep
  intro e he
  cases a with
  | tick =>
      obtain ⟨d, hd, rfl⟩ := List.mem_map.mp he
      obtain ⟨hd, hleft⟩ := List.mem_filter.mp hd
      have hleft : d.left ≠ 1 := of_decide_eq_true hleft
      exact ⟨(hpass d hd).ready, fun _ => (hpass d hd).early hleft⟩
  | run c =>
      obtain ⟨d, hd, rfl⟩ := List.mem_map.mp he
      exact hpass d hd
  | heapWord st =>
      obtain ⟨d, hd, rfl⟩ := List.mem_map.mp he
      exact hpass d hd

theorem holds_falls {a : Action} {s' : Kernel} (hs : r.kernel.Settled)
    (hafter : r.kernel.After a s') (hstep : r.kernel.step a = some s') :
    ∀ e ∈ r.falls a, e.Holds s' := by
  intro e he
  unfold falls at he
  split at he
  case h_1 t hfalls =>
    obtain ⟨left, -, rfl⟩ := Option.map_eq_some_iff.mp (Option.mem_toList.mp he)
    exact Sleeping.holds_of_fallsAsleep hfalls hs hafter hstep
  case h_2 => exact absurd he List.not_mem_nil

end SleepRun

/-! ### The conditions as tests -/

namespace Sleeping

variable (e : Sleeping)

/-- `LeftAlone` as a test. -/
def leftAlone (s : Kernel) (a : Action) : Bool :=
  decide (e.thread ≠ s.idleThread) &&
    if e.left ≠ 1 then !s.makesReady a e.thread
    else match a with
      | .tick =>
          if s.tickCount + 1 < TIME_SLICE then e.woken
          else (e.woken || decide (e.thread = s.current)) &&
            s.readyThreads.head?.any (· ≠ e.thread)
      | _ => true

theorem leftAlone_sound {e : Sleeping} {s : Kernel} {a : Action} (h : e.leftAlone s a = true) :
    e.LeftAlone s a := by
  unfold leftAlone at h
  rw [Bool.and_eq_true, decide_eq_true_eq] at h
  obtain ⟨hidle, h⟩ := h
  refine ⟨hidle, fun hleft => ?_, ?_⟩
  · rw [if_pos hleft] at h
    simpa using h
  · rintro hlast rfl
    rw [if_neg (not_not.mpr hlast)] at h
    dsimp only at h
    split at h
    case isTrue hslice => rwa [if_pos hslice]
    case isFalse hslice =>
      rw [if_neg hslice]
      simp only [Bool.and_eq_true, Bool.or_eq_true, decide_eq_true_eq, Option.any_eq_true] at h
      exact h

end Sleeping

namespace SleepRun

/-- The kernel at its start, without sleepers. -/
def startRun : SleepRun := ⟨startKernel, fun _ => none, [], True⟩

theorem startRun_start : sleepMachine.start startRun :=
  ⟨startKernel_start, fun _ => rfl, rfl, trivial⟩

/-- Disciplined threads that leave the sleepers alone, as a test. -/
def orderly (r : SleepRun) (x : SleepAction) : Bool :=
  r.kernel.disciplined id x.action && r.asleep.all fun e => e.leftAlone r.kernel x.action

theorem orderly_sound {r : SleepRun} {x : SleepAction} (h : r.orderly x = true) :
    r.kernel.Disciplined id x.action ∧ r.LeavesAlone x := by
  rw [orderly, Bool.and_eq_true, List.all_eq_true] at h
  exact ⟨Kernel.disciplined_sound h.1, fun e he => Sleeping.leftAlone_sound (h.2 e he)⟩

end SleepRun

/-- Steps whose `thread_sleep` counts ticks. -/
def inTicks (as : List Action) : List SleepAction := as.map fun a => ⟨a, .tick⟩

end NickOS3.Thread
