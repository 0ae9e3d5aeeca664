import NickOS3.Thread.SchedulerInvariant
import Mathlib.Data.Finset.Card

/-!
# Counting semaphores

The value is what the semaphore was set up with, and what came and went. `sema_up` wakes a
waiter and counts afterwards; the woken thread looks at the value again. A unit is lost to a
waiter only when another thread is on its way to it.
-/

namespace NickOS3.Thread

open Foundation

namespace Kernel

variable (s : Kernel) (r : SemaRef)

/-- Waiting threads are left to `sema_up`. -/
def LeavesWaiters (a : Action) : Prop :=
  s.Acts a → ∀ t created, s.place s.current = .unblocking t created →
    ∀ r ∈ s.initialised, t ∉ (s.semas r).waiters

/-- The threads that were woken and have not looked at the value yet. -/
def woken : Finset Nat :=
  (Finset.range (s.numThreads + 1)).filter fun t =>
    t ≠ 0 ∧ (s.place t).waits r = true ∧ t ∉ (s.semas r).waiters

/-- What holds of a semaphore along a run. -/
structure SemaInvariant : Prop where
  conserved : (s.counts r).initial + (s.counts r).ups < 4294967296 →
    (s.semas r).value + (s.counts r).downs = (s.counts r).initial + (s.counts r).ups
  nodup : (s.semas r).waiters.Nodup
  waits : ∀ t ∈ (s.semas r).waiters, (s.place t).waits r = true ∧ s.status t = .blocked
  current : s.current ∉ (s.semas r).waiters
  woken : (s.semas r).waiters ≠ [] → (s.semas r).value ≤ (s.woken r).card

variable {s r} {s' : Kernel} {a : Action}

theorem mem_woken {t : Nat} : t ∈ s.woken r ↔ (t ≠ 0 ∧ t ≤ s.numThreads) ∧
    (s.place t).waits r = true ∧ t ∉ (s.semas r).waiters := by
  simp only [woken, Finset.mem_filter, Finset.mem_range, Nat.lt_succ_iff]
  constructor
  · exact fun ⟨hle, h0, hrest⟩ => ⟨⟨h0, hle⟩, hrest⟩
  · exact fun ⟨⟨h0, hle⟩, hrest⟩ => ⟨hle, h0, hrest⟩

theorem ofIdle_of_waits {p : Place} (h : p.waits r = true) : p.ofIdle = false := by
  cases p <;> first | rfl | exact absurd h (by simp [Place.waits])

theorem waits_unique {p : Place} {k : SemaRef} (h : p.waits r = true) (h' : p.waits k = true) :
    r = k := by
  cases p <;> simp_all [Place.waits]

/-- A blocked thread that is not the idle thread stays blocked until it is unblocked. -/
theorem Settled.stays_blocked (h : s.Settled) (heffect : s.Effect a s')
    (hrun : s'.outcome = .running) {t : Nat} (ht : t ≠ 0 ∧ t ≤ s.numThreads) (htwo : t ≠ 2)
    (hne : t ≠ s.current) (hblocked : s.status t = .blocked) :
    s'.status t = .blocked ∨
      s.Acts a ∧ (∃ created, s.place s.current = .unblocking t created) ∨
      ∃ k ∈ s.initialised, (s.semas k).waiters = t :: (s'.semas k).waiters := by
  have hscheduled : ∀ v : Kernel, v.sched.Leaving → v.sched.Listed → v.status t = .blocked →
      v.schedule.outcome = .running → v.schedule.status t = .blocked := by
    intro v hleaving hlisted hv hrun
    have hselected := hleaving.selected_ne hlisted hv htwo
    have hstatus : v.schedule.status = v.sched.schedule.status :=
      congrArg (·.status) (sched_schedule hrun)
    rw [hstatus, SchedView.schedule_status, Function.update_of_ne hselected]
    exact hv
  cases heffect with
  | panics p hpanic => simp [hpanic] at hrun
  | overruns _ hover => simp [hover] at hrun
  | quiet _ hsched _ =>
      have hstatus : s'.status = s.status := congrArg (·.status) hsched
      exact .inl (hstatus ▸ hblocked)
  | word st _ hsched _ =>
      have hstatus : s'.status = Function.update s.status 0 st := congrArg (·.status) hsched
      rw [hstatus, Function.update_of_ne ht.1]
      exact .inl hblocked
  | dies _ _ _ hsched =>
      have hstatus : s'.status = Function.update s.status s.current .dying :=
        congrArg (·.status) hsched
      rw [hstatus, Function.update_of_ne hne]
      exact .inl hblocked
  | creates _ _ _ hsched =>
      have hstatus : s'.status = Function.update s.status (s.numThreads + 1) .blocked :=
        congrArg (·.status) hsched
      rw [hstatus, Function.update_of_ne (by omega)]
      exact .inl hblocked
  | appends new _ _ _ hsched =>
      have hstatus : s'.status = s.status := congrArg (·.status) hsched
      exact .inl (hstatus ▸ hblocked)
  | wakes n _ _ hfrom _ hsched =>
      by_cases hn : t = n
      · subst hn
        exact .inr (hfrom.imp id And.right)
      · have hstatus : s'.status = Function.update s.status n .ready := congrArg (·.status) hsched
        rw [hstatus, Function.update_of_ne hn]
        exact .inl hblocked
  | sleeps n _ _ _ hsched =>
      have hstatus : s'.status = Function.update s.status n .blocked := congrArg (·.status) hsched
      left
      rw [hstatus]
      by_cases hn : t = n
      · rw [hn, Function.update_self]
      · rw [Function.update_of_ne hn]
        exact hblocked
  | idles _ _ hsched =>
      have hstatus : s'.status = s.status := congrArg (·.status) hsched
      exact .inl (hstatus ▸ hblocked)
  | yields u _ _ _ _ hsched =>
      obtain ⟨hleaving, hlisted⟩ := h.leavingYield hsched
      refine .inl (hscheduled _ hleaving hlisted ?_ hrun)
      show (u.setStatus u.current .ready).requeue.sched.status t = .blocked
      rw [sched_requeue, hsched, SchedView.requeue_status]
      exact (Function.update_of_ne hne _ _).trans hblocked
  | blocks u _ _ _ hbefore hsched =>
      obtain ⟨hleaving, hlisted⟩ := h.leavingBlock hbefore hsched
      have hcurrent : u.current = s.current := congrArg (·.current) hsched
      have hstatus : u.status = s.status := congrArg (·.status) hsched
      refine .inl (hscheduled _ hleaving hlisted ?_ hrun)
      rw [setStatus_status, hcurrent, Function.update_of_ne hne, hstatus]
      exact hblocked
  | ends u _ hflag hplace _ hsched =>
      rcases h.awake with hrunning | ⟨-, hnot⟩ | ⟨hdying, -⟩
      · exact absurd (status_of_sched hsched hrunning) (u.schedule_running hrun).2.1
      · exact absurd hplace hnot
      · obtain ⟨hleaving, hlisted⟩ := h.leavingEnd hplace hdying hsched
        have hstatus : u.status = s.status := congrArg (·.status) hsched
        exact .inl (hscheduled _ hleaving hlisted (hstatus ▸ hblocked) hrun)

/-- The running thread is blocked behind a pass through the loop of `sema_down`. -/
theorem Settled.queued_blocked (h : s.Settled) (hbefore : (s.place s.current).ofIdle = false)
    {u : Kernel} (hsched : u.sched = s.sched)
    (hrun : (u.setStatus u.current .blocked).schedule.outcome = .running) :
    (u.setStatus u.current .blocked).schedule.status s.current = .blocked := by
  obtain ⟨hleaving, hlisted⟩ := h.leavingBlock (Place.beforeIdle_of_ofIdle hbefore) hsched
  have hcurrent : u.current = s.current := congrArg (·.current) hsched
  have hblocked : (u.setStatus u.current .blocked).sched.status s.current = .blocked := by
    show (u.setStatus u.current .blocked).status s.current = .blocked
    rw [setStatus_status, hcurrent, Function.update_self]
  have hselected := hleaving.selected_ne hlisted hblocked (h.current_ne_two hbefore)
  have hstatus : (u.setStatus u.current .blocked).schedule.status = _ :=
    congrArg (·.status) (sched_schedule hrun)
  rw [hstatus, SchedView.schedule_status, Function.update_of_ne hselected]
  exact hblocked

/-! ## Steps -/

/-- The woken threads that the step leaves alone. -/
theorem mem_woken_of_step (hmoves : s.Moves s') {t : Nat} (ht : t ∈ s.woken r)
    (hplace : t = s.current → (s'.place s.current).waits r = true)
    (hnot : t ∉ (s'.semas r).waiters) : t ∈ s'.woken r := by
  obtain ⟨⟨h0, hle⟩, hwaits, -⟩ := mem_woken.mp ht
  have hle' : t ≤ s'.numThreads := by
    rcases hmoves.threads with hnum | ⟨hnum, -⟩ <;> omega
  refine mem_woken.mpr ⟨⟨h0, hle'⟩, ?_, hnot⟩
  by_cases hcur : t = s.current
  · rw [hcur]
    exact hplace hcur
  · rw [hmoves.others t hcur hle]
    exact hwaits

theorem u32_le (n : Nat) : u32 n ≤ n := Nat.mod_le _ _

theorem SemaInvariant.conserved_raised (h : s.SemaInvariant r)
    (hsema : (s'.semas r).value = u32 ((s.semas r).value + 1))
    (hcount : s'.counts r = { s.counts r with ups := (s.counts r).ups + 1 })
    (hfew : (s'.counts r).initial + (s'.counts r).ups < 4294967296) :
    (s'.semas r).value + (s'.counts r).downs = (s'.counts r).initial + (s'.counts r).ups := by
  rw [hcount] at hfew ⊢
  have hfew : (s.counts r).initial + ((s.counts r).ups + 1) < 4294967296 := hfew
  have hold := h.conserved (by omega)
  rw [hsema, u32_of_lt (by omega)]
  show (s.semas r).value + 1 + (s.counts r).downs = (s.counts r).initial + ((s.counts r).ups + 1)
  omega

/-- A waiter that is still one behind the step waits and is blocked. -/
theorem Settled.still_waits (h : s.Settled) (hs : ∀ k ∈ s.initialised, s.SemaInvariant k)
    (hleaves : s.LeavesWaiters a) (hmoves : s.Moves s') (heffect : s.Effect a s')
    (hrun : s'.outcome = .running) (hr : r ∈ s.initialised) {t : Nat}
    (ht : t ∈ (s.semas r).waiters) (ht' : t ∈ (s'.semas r).waiters) :
    (s'.place t).waits r = true ∧ s'.status t = .blocked := by
  obtain ⟨hwaits, hblocked⟩ := (hs r hr).waits t ht
  have hthread := h.roster.listed.created t (h.roster.waiters r hr t ht)
  have hne : t ≠ s.current := by
    rintro rfl
    exact (hs r hr).current ht
  have htwo : t ≠ 2 := by
    rintro rfl
    have hidle := (h.two_of_ofIdle hthread.1 hthread.2).mpr rfl
    rw [ofIdle_of_waits hwaits] at hidle
    exact absurd hidle (by decide)
  refine ⟨by rw [hmoves.others t hne hthread.2]; exact hwaits, ?_⟩
  rcases h.stays_blocked heffect hrun hthread htwo hne hblocked with
    hstays | ⟨hact, created, hplace⟩ | ⟨k, hk, hwoken⟩
  · exact hstays
  · exact absurd ht (hleaves hact t created hplace r hr)
  · -- a thread waits for one semaphore only, so it was this one's first waiter
    have hmem : t ∈ (s.semas k).waiters := by
      rw [hwoken]
      exact List.mem_cons_self
    obtain rfl := waits_unique hwaits ((hs k hk).waits t hmem).1
    have hnodup := (hs r hr).nodup
    rw [hwoken] at hnodup
    exact absurd ht' (List.nodup_cons.mp hnodup).1

/-- The thread that runs behind the step is the same, or it has been marked as running. -/
theorem After.current_notMem (h : s.After a s')
    (hwaits : ∀ t ∈ (s'.semas r).waiters, (s'.place t).waits r = true ∧ s'.status t = .blocked)
    (hkept : s'.current = s.current → s.current ∉ (s'.semas r).waiters) :
    s'.current ∉ (s'.semas r).waiters := by
  intro hmem
  have hne : s'.status s'.current ≠ .running := by
    rw [(hwaits _ hmem).2]
    exact nofun
  have hcurrent := (h.asleep hne).1
  exact hkept hcurrent (hcurrent ▸ hmem)

theorem Settled.semaStep (h : s.Settled) (hs : ∀ k ∈ s.initialised, s.SemaInvariant k)
    (hleaves : s.LeavesWaiters a) (hafter : s.After a s') (hstep : s.step a = some s')
    (hr' : r ∈ s'.initialised) : s'.SemaInvariant r := by
  have hrun := hafter.running
  have hv := h.valid
  have hmoves := step_moves hv hstep
  have heffect := step_effect hv h.prepared hstep
  have hgoes := step_goes h.prepared.started
    (h.prepared.used _ hv.current.1 hv.current.2) hstep
  cases step_semaEffect (r := r) hstep with
  | panics p hpanic => simp [hpanic] at hrun
  | kept hinit hsema hcount hplace =>
      have hr := hinit.mp hr'
      have hinv := hs r hr
      have hwaits := fun t ht =>
        h.still_waits (t := t) hs hleaves hmoves heffect hrun hr (hsema ▸ ht) ht
      refine ⟨?_, ?_, hwaits, hafter.current_notMem hwaits fun _ => ?_, fun hne => ?_⟩
      · rw [hsema, hcount]
        exact hinv.conserved
      · rw [hsema]
        exact hinv.nodup
      · rw [hsema]
        exact hinv.current
      · rw [hsema] at hne ⊢
        refine (hinv.woken hne).trans (Finset.card_le_card fun t ht => ?_)
        refine mem_woken_of_step hmoves ht (fun hcur => ?_) (hsema ▸ (mem_woken.mp ht).2.2)
        rw [hplace, ← hcur]
        exact (mem_woken.mp ht).2.1
  | created value hvalue hfresh hsema hcount hplace =>
      refine ⟨fun _ => ?_, ?_, fun t ht => ?_, ?_, fun hne => ?_⟩
      · rw [hsema, hcount]
      · simp [hsema]
      · simp [hsema] at ht
      · simp [hsema]
      · simp [hsema] at hne
  | taken hinit hvalue hsema hcount hplace =>
      have hr := hinit.mp hr'
      have hinv := hs r hr
      have hwaiters : (s'.semas r).waiters = (s.semas r).waiters := by rw [hsema]
      have hwaits := fun t ht =>
        h.still_waits (t := t) hs hleaves hmoves heffect hrun hr (hwaiters ▸ ht) ht
      refine ⟨fun hfew => ?_, ?_, hwaits, hafter.current_notMem hwaits fun _ => ?_, fun hne => ?_⟩
      · rw [hcount] at hfew ⊢
        have hold := hinv.conserved hfew
        rw [hsema]
        show (s.semas r).value - 1 + ((s.counts r).downs + 1) =
          (s.counts r).initial + (s.counts r).ups
        omega
      · rw [hwaiters]
        exact hinv.nodup
      · rw [hwaiters]
        exact hinv.current
      · rw [hwaiters] at hne
        have hold := hinv.woken hne
        have hless := Finset.pred_card_le_card_erase (a := s.current) (s := s.woken r)
        have hsub : (s.woken r).erase s.current ⊆ s'.woken r := by
          intro t ht
          obtain ⟨hcur, ht⟩ := Finset.mem_erase.mp ht
          exact mem_woken_of_step hmoves ht (fun heq => absurd heq hcur)
            (hwaiters ▸ (mem_woken.mp ht).2.2)
        have hcard := Finset.card_le_card hsub
        rw [hsema]
        show (s.semas r).value - 1 ≤ (s'.woken r).card
        omega
  | queued hinit hvalue hsema hcount hplace hblock =>
      have hr := hinit.mp hr'
      have hinv := hs r hr
      have hwaits : ∀ t ∈ (s'.semas r).waiters,
          (s'.place t).waits r = true ∧ s'.status t = .blocked := by
        intro t ht
        by_cases hcur : t = s.current
        · subst hcur
          refine ⟨hplace, ?_⟩
          obtain ⟨u, hsched, rfl⟩ := hblock
          have hofIdle : (s.place s.current).ofIdle = false := by
            rw [← hgoes.ofIdle]
            exact ofIdle_of_waits hplace
          exact h.queued_blocked hofIdle hsched hrun
        · refine h.still_waits hs hleaves hmoves heffect hrun hr ?_ ht
          rw [hsema] at ht
          simpa [hcur] using ht
      refine ⟨?_, ?_, hwaits, fun hmem => ?_, fun _ => ?_⟩
      · rw [hsema, hcount]
        exact hinv.conserved
      · rw [hsema]
        exact List.nodup_append.mpr ⟨hinv.nodup, List.nodup_singleton _, by
          rintro t ht u hu rfl
          exact hinv.current (List.mem_singleton.mp hu ▸ ht)⟩
      · obtain ⟨u, -, rfl⟩ := hblock
        exact absurd ((hwaits _ hmem).2.symm.trans (schedule_marks hrun)) nofun
      · rw [hsema]
        show (s.semas r).value ≤ _
        rw [hvalue]
        exact Nat.zero_le _
  | raised hinit hsema hcount hplace hplace' =>
      have hr := hinit.mp hr'
      have hinv := hs r hr
      have hwaiters : (s'.semas r).waiters = (s.semas r).waiters.tail := by rw [hsema]
      have hmem : ∀ t ∈ (s'.semas r).waiters, t ∈ (s.semas r).waiters := fun t ht =>
        List.mem_of_mem_tail (hwaiters ▸ ht)
      have hwaits := fun t ht =>
        h.still_waits (t := t) hs hleaves hmoves heffect hrun hr (hmem t ht) ht
      refine ⟨fun hfew => ?_, ?_, hwaits, hafter.current_notMem hwaits fun _ hin =>
        hinv.current (hmem _ hin), fun hne => ?_⟩
      · exact hinv.conserved_raised (by rw [hsema]) hcount hfew
      · rw [hwaiters]
        exact hinv.nodup.tail
      · cases hlist : (s.semas r).waiters with
        | nil =>
            rw [hwaiters, hlist] at hne
            exact absurd rfl hne
        | cons t rest =>
            have hold := hinv.woken (by simp [hlist])
            have htw : t ∈ (s.semas r).waiters := by simp [hlist]
            have hthread := h.roster.listed.created t (h.roster.waiters r hr t htw)
            have hcur : t ≠ s.current := by
              rintro rfl
              exact hinv.current htw
            have hsub : insert t (s.woken r) ⊆ s'.woken r := by
              intro u hu
              rcases Finset.mem_insert.mp hu with rfl | hu
              · have hnodup := hinv.nodup
                rw [hlist] at hnodup
                have hle : u ≤ s'.numThreads := by
                  rcases hmoves.threads with hnum | ⟨hnum, -⟩
                  · exact hnum ▸ hthread.2
                  · exact hnum ▸ Nat.le_succ_of_le hthread.2
                refine mem_woken.mpr ⟨⟨hthread.1, hle⟩, ?_, ?_⟩
                · rw [hmoves.others u hcur hthread.2]
                  exact (hinv.waits u htw).1
                · rw [hwaiters, hlist]
                  exact (List.nodup_cons.mp hnodup).1
              · refine mem_woken_of_step hmoves hu (fun heq => ?_)
                  fun hin => (mem_woken.mp hu).2.2 (hmem u hin)
                have hw := (mem_woken.mp hu).2.1
                rw [heq, hplace] at hw
                exact absurd hw (by decide)
            have hcard := Finset.card_le_card hsub
            rw [Finset.card_insert_of_notMem fun hin => (mem_woken.mp hin).2.2 htw] at hcard
            have hle := u32_le ((s.semas r).value + 1)
            rw [hsema]
            show u32 ((s.semas r).value + 1) ≤ (s'.woken r).card
            omega

theorem Start.semaInvariant (h : s.Start) : ∀ r ∈ s.initialised, s.SemaInvariant r := by
  intro r hr
  rw [h.initialised] at hr
  obtain rfl := List.mem_singleton.mp hr
  exact ⟨by simp [h.started, h.counts], by simp [h.started], by simp [h.started],
    by simp [h.started], by simp [h.started]⟩

variable (s r)

/-- What a semaphore guarantees. -/
structure SemaConserved : Prop where
  conserved : (s.counts r).initial + (s.counts r).ups < 4294967296 →
    (s.semas r).value + (s.counts r).downs = (s.counts r).initial + (s.counts r).ups
  nodup : (s.semas r).waiters.Nodup
  blocked : ∀ t ∈ (s.semas r).waiters, s.isThread t = true ∧ s.status t = .blocked
  up : ∀ p, (s.semaUp r).outcome ≠ .panic p
  woken : (s.semas r).waiters ≠ [] → (s.semas r).value ≤ (s.woken r).card

variable {s r}

theorem Settled.semaConserved (h : s.Settled) (hrun : s.outcome = .running)
    (hs : s.SemaInvariant r) (hr : r ∈ s.initialised) : s.SemaConserved r := by
  have hthread : ∀ t ∈ (s.semas r).waiters, t ≠ 0 ∧ t ≤ s.numThreads := fun t ht =>
    h.roster.listed.created t (h.roster.waiters r hr t ht)
  refine ⟨hs.conserved, hs.nodup, fun t ht => ⟨isThread_iff.mpr (hthread t ht), (hs.waits t ht).2⟩,
    fun p => ?_, hs.woken⟩
  cases hwaiters : (s.semas r).waiters with
  | nil =>
      rw [semaUp_empty hwaiters hrun]
      simp [hrun]
  | cons t rest =>
      have ht : t ∈ (s.semas r).waiters := by simp [hwaiters]
      have hcheck : s.unblockCheck t = none :=
        unblockCheck_eq_none.mpr ⟨hthread t ht, (hs.waits t ht).2⟩
      rw [semaUp_wake hwaiters hcheck hrun]
      simp [hrun]

variable (s)

/-- A step that leaves waiting threads to `sema_up`, and unblocks no thread that runs or is not
blocked any longer. -/
def WokenByUp (a : Action) : Prop :=
  s.FindsBlocked a ∧ s.UnblocksOther a ∧ s.LeavesWaiters a

/-- `LeavesWaiters` as a test. -/
def leavesWaiters : Action → Bool
  | .run _ => s.inHandler s.current ||
      match s.place s.current with
      | .unblocking t _ => s.initialised.all fun r => decide (t ∉ (s.semas r).waiters)
      | _ => true
  | _ => true

variable {s} in
theorem leavesWaiters_sound (h : s.leavesWaiters a = true) : s.LeavesWaiters a := by
  rintro ⟨hin, c, rfl⟩ t created hplace r hr
  simp only [leavesWaiters, hin, Bool.false_or, hplace, List.all_eq_true] at h
  exact of_decide_eq_true (h r hr)

end Kernel

end NickOS3.Thread
