import NickOS3.Thread.Queues

/-!
# The scheduler's invariant

In an orderly run `thread_unblock` still finds its thread blocked when it appends it, and
`thread_sleep` puts only another thread to sleep. When that thread is not a finished one, the
queues and the statuses agree in every state that is reached without a panic. `thread_create`
looks for its page and clears it with three more behind it; runs in which it does so with
interrupts enabled or over another thread are left out.
-/

namespace NickOS3.Thread

open Foundation

namespace Kernel

variable (s : Kernel)

/-- The thread that is unblocked in this step is still blocked. -/
def FindsBlocked (a : Action) : Prop :=
  s.Acts a → ∀ t created, s.place s.current = .unblocking t created → s.status t = .blocked

/-- No thread unblocks itself in this step. -/
def UnblocksOther (a : Action) : Prop :=
  s.Acts a → ∀ t created, s.place s.current = .unblocking t created → t ≠ s.current

/-- No thread puts itself to sleep in this step. -/
def SleepsOther (a : Action) : Prop :=
  s.Acts a → ∀ t, s.place s.current = .sleeping t → t ≠ s.current

def Orderly (a : Action) : Prop := s.FindsBlocked a ∧ s.SleepsOther a

/-- The thread that is put to sleep in this step is not a finished one. -/
def SleepsLive (a : Action) : Prop :=
  s.Acts a → ∀ t, s.place s.current = .sleeping t → s.status t ≠ .dying

/-- `thread_create` is called with interrupts off, so that nobody else is given its page
meanwhile, and the four pages that are cleared for it hold no thread that was created before;
`page t` is the number of the page of the thread `t`. What else may lie there (the elements of the
lists, semaphores) is not in the state. -/
def CreatesApart (page : Nat → Nat) (a : Action) : Prop :=
  s.Acts a → s.place s.current = .user → (∃ null, a = .run (.threadCreate null)) →
    s.intFlag = false ∧ ∀ t ∈ s.created,
      page t < page (s.numThreads + 1) ∨ page (s.numThreads + 1) + 4 ≤ page t

/-- The running thread is marked as such, unless it has put itself to sleep or is dying. -/
def Awake : Prop :=
  s.status s.current = .running ∨ s.status s.current = .blocked ∧ s.place s.current ≠ .dying ∨
    s.status s.current = .dying ∧ s.place s.current = .dying

/-- A thread that has put itself to sleep does not wait for a semaphore. -/
def RunsOn : Prop :=
  s.status s.current = .blocked → ∀ r ∈ s.initialised, s.current ∉ (s.semas r).waiters

/-- What holds of the threads and the queues when unblocked threads are found blocked. -/
structure Settled : Prop where
  valid : s.Valid
  prepared : s.Prepared
  idleKept : s.IdleKept
  booting : s.Booting
  roster : s.Roster
  queues : s.sched.Queues
  awake : s.Awake
  dead : ∀ t, t ≠ 0 → t ≤ s.numThreads → s.place t = .dead → t ∈ s.killed
  killed : ∀ t ∈ s.killed, t ≠ 0 → s.place t = .dead
  once : ∀ t, t ≠ 0 → s.killed.count t ≤ 1

variable {s} {s' u : Kernel} {a : Action}

/-- Who runs behind `schedule` is marked as running. -/
theorem schedule_marks (hrun : u.schedule.outcome = .running) :
    u.schedule.status u.schedule.current = .running := by
  have heq := sched_schedule hrun
  have hcurrent : u.schedule.current = u.sched.schedule.current := congrArg (·.current) heq
  have hstatus : u.schedule.status = u.sched.schedule.status := congrArg (·.status) heq
  rw [hcurrent, hstatus]
  simp

/-- `schedule` does not stop the kernel and leaves the queues in order. -/
theorem Leaving.scheduled (h : u.sched.Leaving) (hl : u.sched.Listed)
    (hrun : u.outcome = .running) (hflag : u.intFlag = false)
    (hstatus : u.status u.current ≠ .running) :
    u.schedule.outcome = .running ∧ u.schedule.sched = u.sched.schedule ∧
      u.schedule.sched.Queues ∧ u.schedule.status u.schedule.current = .running := by
  have hsched : u.schedule.outcome = .running := by
    rcases u.schedule_outcome hflag with hsame | ⟨-, hrunning⟩ | ⟨-, h0, -⟩
    · exact hsame.trans hrun
    · exact absurd hrunning hstatus
    · exact absurd h0 (h.selected_ne_zero hl)
  have heq := sched_schedule hsched
  refine ⟨hsched, heq, ?_, schedule_marks hsched⟩
  rw [heq]
  exact h.schedule hl

namespace Settled

theorem awake_of_same (h : s.Settled) (hgoes : s.Goes s') (hcurrent : s'.current = s.current)
    (hstatus : s'.status s.current = s.status s.current)
    (hplace : s.place s.current = .dying → s'.place s.current = .dying) : s'.Awake := by
  unfold Awake
  rw [hcurrent, hstatus]
  rcases h.awake with hrunning | ⟨hblocked, hne⟩ | ⟨hdying, hat⟩
  · exact .inl hrunning
  · refine .inr (.inl ⟨hblocked, fun hdying => ?_⟩)
    rcases hgoes.dying hdying with hbefore | ⟨hmark, -⟩
    · exact hne hbefore
    · exact absurd (hblocked.symm.trans (hstatus.symm.trans hmark)) nofun
  · exact .inr (.inr ⟨hdying, hplace hat⟩)

theorem two_of_ofIdle (h : s.Settled) {t : Nat} (h0 : t ≠ 0) (hle : t ≤ s.numThreads) :
    (s.place t).ofIdle = true ↔ t = 2 := h.idleKept.places t h0 hle

theorem current_ne_two (h : s.Settled) (hplace : (s.place s.current).ofIdle = false) :
    s.current ≠ 2 := by
  intro htwo
  have hidle := (h.two_of_ofIdle h.valid.current.1 h.valid.current.2).mpr htwo
  rw [hplace] at hidle
  exact absurd hidle (by decide)

theorem live (h : s.Settled) (hplace : s.place s.current ≠ .dead) : s.current ∉ s.killed :=
  fun hk => hplace (h.killed _ hk h.valid.current.1)

theorem not_dead (h : s.Settled) (hburied : s.sched.Buried) : s.place s.current ≠ .dead := by
  intro hdead
  have hk := h.dead _ h.valid.current.1 h.valid.current.2 hdead
  exact (h.queues.gone _ ⟨hk, hburied _ hk h.valid.current.1⟩ h.valid.current.1).1 rfl

end Settled

/-- What a step does to the queues, when the kernel goes on. -/
structure After (s : Kernel) (a : Action) (s' : Kernel) : Prop where
  running : s'.outcome = .running
  queues : s'.sched.Queues
  awake : s'.Awake
  asleep : s'.status s'.current ≠ .running → s'.current = s.current ∧
    (s'.status s.current = s.status s.current ∨ s'.status s.current = .dying ∨
      s.Acts a ∧ s.place s.current = .sleeping s.current)
  killed : s'.killed = s.killed ∨ s'.killed = 0 :: s.killed ∨
    s'.killed = s.current :: s.killed ∧ s.place s.current = .dying ∧ s'.place s.current = .dead
  dead : s.place s.current = .dying → s'.place s.current = .dead → s.current ∈ s'.killed

theorem After.mem_killed (h : s.After a s') {t : Nat} (ht : t ∈ s.killed) : t ∈ s'.killed := by
  rcases h.killed with hk | hk | ⟨hk, -⟩ <;> rw [hk]
  · exact ht
  · exact List.mem_cons_of_mem _ ht
  · exact List.mem_cons_of_mem _ ht

/-- A thread that is not dying is not killed by the `schedule` that leaves it. -/
theorem killed_schedule {v : SchedView} (h : v.Leaving) (hl : v.Listed)
    (hlive : v.status v.current ≠ .dying) :
    v.schedule.killed = v.killed ∨ v.schedule.killed = 0 :: v.killed := by
  obtain ⟨-, ⟨hk, -⟩ | ⟨hk, -⟩ | ⟨-, -, -, hdying⟩⟩ := h.reaped hl
  · exact .inl hk
  · exact .inr hk
  · exact absurd hdying hlive

/-- A step that does not schedule. -/
theorem After.of_same (hrun : s'.outcome = .running) (hcurrent : s'.current = s.current)
    (hkilled : s'.killed = s.killed) (hqueues : s'.sched.Queues) (hawake : s'.Awake)
    (hplace : s.place s.current = .dying → s'.place s.current = .dying)
    (hstatus : s'.status s.current = s.status s.current ∨ s'.status s.current = .dying ∨
      s.Acts a ∧ s.place s.current = .sleeping s.current) : s.After a s' := by
  refine ⟨hrun, hqueues, hawake, fun _ => ⟨hcurrent, hstatus⟩, .inl hkilled,
    fun hdying hdead => ?_⟩
  rw [hplace hdying] at hdead
  exact absurd hdead nofun

/-- A step that leaves the running thread as it is. -/
theorem Settled.afterSame (h : s.Settled) (hgoes : s.Goes s') (hrun : s'.outcome = .running)
    (hcurrent : s'.current = s.current) (hkilled : s'.killed = s.killed)
    (hqueues : s'.sched.Queues) (hstatus : s'.status s.current = s.status s.current)
    (hplace : s.place s.current = .dying → s'.place s.current = .dying) : s.After a s' :=
  .of_same hrun hcurrent hkilled hqueues (h.awake_of_same hgoes hcurrent hstatus hplace) hplace
    (.inl hstatus)

theorem Settled.leavingYield (h : s.Settled) (hsched : u.sched = s.sched) :
    (u.setStatus u.current .ready).requeue.sched.Leaving ∧
      (u.setStatus u.current .ready).requeue.sched.Listed := by
  rw [sched_requeue, hsched]
  exact ⟨h.queues.requeue h.roster.listed, h.roster.listed.requeue⟩

theorem Settled.leavingBlock (h : s.Settled) (hbefore : (s.place s.current).beforeIdle = false)
    (hsched : u.sched = s.sched) : (u.setStatus u.current .blocked).sched.Leaving ∧
      (u.setStatus u.current .blocked).sched.Listed := by
  have hidle : s.current = 2 → s.idleThread ≠ 0 := by
    intro htwo
    rw [htwo] at hbefore
    rw [h.idleKept.thread, hbefore]
    decide
  exact ⟨SchedView.Queues.block (v := u.sched) (hsched ▸ h.queues) (hsched ▸ hidle),
    SchedView.Listed.setStatus (v := u.sched) (hsched ▸ h.roster.listed) _⟩

theorem Settled.leavingEnd (h : s.Settled) (hplace : s.place s.current = .dying)
    (hstatus : s.status s.current = .dying) (hsched : u.sched = s.sched) :
    u.sched.Leaving ∧ u.sched.Listed := by
  rw [hsched]
  exact ⟨h.queues.finish hstatus (h.current_ne_two (by rw [hplace]; rfl)), h.roster.listed⟩

theorem Settled.afterYield (h : s.Settled) (hrun : u.outcome = .running)
    (hflag : u.intFlag = false)
    (hplace : s.place s.current = .dying → u.place s.current = .dying)
    (hsched : u.sched = s.sched) : s.After a u.yieldOff := by
  obtain ⟨hleaving, hlisted⟩ := h.leavingYield hsched
  obtain ⟨hrun', heq, hqueues, hrunning⟩ := Leaving.scheduled hleaving hlisted
    (by simpa using hrun) (by simpa using hflag) (by simp)
  refine ⟨hrun', hqueues, .inl hrunning, fun hne => absurd hrunning hne, ?_,
    fun hdying hdead => ?_⟩
  · have hkilled : u.yieldOff.killed = _ := congrArg (·.killed) heq
    have hcases := killed_schedule hleaving hlisted
    rw [sched_requeue, hsched] at hcases hkilled
    rw [hkilled]
    refine (hcases ?_).imp_right .inl
    rw [SchedView.requeue_status]
    exact fun hdying => absurd ((Function.update_self ..).symm.trans hdying) nofun
  · rw [yieldOff_place, hplace hdying] at hdead
    exact absurd hdead nofun

theorem Settled.afterBlock (h : s.Settled) (hrun : u.outcome = .running)
    (hflag : u.intFlag = false) (hplace : s.place s.current ≠ .dying)
    (hbefore : (s.place s.current).beforeIdle = false) (hsched : u.sched = s.sched) :
    s.After a (u.setStatus u.current .blocked).schedule := by
  obtain ⟨hleaving, hlisted⟩ := h.leavingBlock hbefore hsched
  obtain ⟨hrun', heq, hqueues, hrunning⟩ := Leaving.scheduled hleaving hlisted
    (by simpa using hrun) (by simpa using hflag) (by simp)
  refine ⟨hrun', hqueues, .inl hrunning, fun hne => absurd hrunning hne, ?_,
    fun hdying _ => absurd hdying hplace⟩
  have hkilled : (u.setStatus u.current .blocked).schedule.killed = _ := congrArg (·.killed) heq
  have hsame : u.killed = s.killed := congrArg (·.killed) hsched
  have hcurrent : u.current = s.current := congrArg (·.current) hsched
  rw [hkilled, ← hsame]
  refine (killed_schedule hleaving hlisted ?_).imp_right .inl
  exact fun hdying => absurd ((Function.update_self ..).symm.trans hdying) nofun

/-- What the last `schedule` of a dying thread does. -/
structure Ends (s s' : Kernel) : Prop where
  other : s'.current ≠ s.current
  killed : s'.killed = s.current :: s.killed
  all : s'.allThreads = s.allThreads.erase s.current
  ready : ∀ t, t ≠ s'.current → (t ∈ s'.readyThreads ↔ t ∈ s.readyThreads)

theorem Settled.afterEnd (h : s.Settled) (hrun : u.outcome = .running)
    (hflag : u.intFlag = false) (hplace : s.place s.current = .dying)
    (hplace' : u.place s.current = .dead) (hstatus : s.status s.current = .dying)
    (hsched : u.sched = s.sched) : s.After a u.schedule ∧ s.Ends u.schedule := by
  have hl := h.roster.listed
  have hcurrent : u.current = s.current := congrArg (·.current) hsched
  have hdying : u.sched.status u.sched.current = .dying := by
    rw [hsched]
    exact hstatus
  have htwo : s.current ≠ 2 := h.current_ne_two (by rw [hplace]; rfl)
  obtain ⟨hleaving, hlisted⟩ := h.leavingEnd hplace hstatus hsched
  have hlive : u.status u.current ≠ .running := by
    show u.sched.status u.sched.current ≠ .running
    rw [hdying]
    exact nofun
  have hne : u.sched.selected ≠ u.sched.current := by
    rw [hsched]
    intro hsame
    rcases SchedView.selected_cases hl.idle (hsched ▸ hleaving.idle) with hmem | ⟨-, hsel⟩
    · exact h.queues.current (hsame ▸ hmem)
    · exact htwo (hsame.symm.trans hsel)
  obtain ⟨hrun', heq, hqueues, hrunning⟩ := Leaving.scheduled hleaving hlisted hrun hflag hlive
  have hnext : u.schedule.current = u.sched.selected := by
    have hnext : u.schedule.current = u.sched.schedule.current := congrArg (·.current) heq
    rw [hnext, SchedView.schedule_current]
  have hready : u.schedule.readyThreads = u.sched.schedule.readyThreads :=
    congrArg (·.readyThreads) heq
  obtain ⟨htail, ⟨-, -, hnot⟩ | ⟨-, -, hsame⟩ | ⟨hkilled, hall, -, -⟩⟩ := hleaving.reaped hlisted
  · exact absurd hdying (hnot hne)
  · exact absurd hsame hne
  · have hk : u.schedule.killed = s.current :: s.killed := by
      have hk : u.schedule.killed = u.sched.schedule.killed := congrArg (·.killed) heq
      rw [hk, hkilled, hsched]
      rfl
    refine ⟨⟨hrun', hqueues, .inl hrunning, fun hnot => absurd hrunning hnot,
      .inr (.inr ⟨hk, hplace, ?_⟩), fun _ _ => ?_⟩, ?_, hk, ?_, fun t ht => ?_⟩
    · rw [schedule_place]
      exact hplace'
    · rw [hk]
      exact List.mem_cons_self
    · rw [hnext, ← hcurrent]
      exact hne
    · have ha : u.schedule.allThreads = u.sched.schedule.allThreads :=
        congrArg (·.allThreads) heq
      rw [ha, hall, hsched]
      rfl
    · rw [hnext] at ht
      rw [hready, htail, SchedView.mem_tail_iff ht, hsched]
      rfl

theorem status_of_sched {st : ThreadStatus} (hsched : u.sched = s.sched)
    (hstatus : s.status s.current = st) : u.status u.current = st := by
  show u.sched.status u.sched.current = st
  rw [hsched]
  exact hstatus

theorem Settled.after (h : s.Settled) (hfinds : s.FindsBlocked a) (hother : s.UnblocksOther a)
    (hruns : s.RunsOn) (hgoes : s.Goes s') (heffect : s.Effect a s') :
    s.After a s' ∨ (∃ p, s'.outcome = .panic p) ∨
      s.place s.current = .dead ∧ s'.outcome = .ranOff := by
  have hl := h.roster.listed
  cases heffect with
  | panics p hpanic => exact .inr (.inl ⟨p, hpanic⟩)
  | overruns hplace hover => exact .inr (.inr ⟨hplace, hover⟩)
  | quiet hrun hsched hplace =>
      have hstatus : s'.status = s.status := congrArg (·.status) hsched
      exact .inl (h.afterSame hgoes hrun (congrArg (·.current) hsched)
        (congrArg (·.killed) hsched) (hsched ▸ h.queues) (congrFun hstatus _) hplace)
  | word st hrun hsched hplace =>
      have hstatus : s'.status = Function.update s.status 0 st := congrArg (·.status) hsched
      refine .inl (h.afterSame hgoes hrun (congrArg (·.current) hsched)
        (congrArg (·.killed) hsched) (hsched ▸ h.queues.word st) ?_ fun hdying => hplace ▸ hdying)
      rw [hstatus, Function.update_of_ne h.valid.current.1]
  | dies hrun hplace hplace' hsched =>
      have hdead : s.place s.current ≠ .dead := by
        rw [hplace]
        exact nofun
      have hcurrent : s'.current = s.current := congrArg (·.current) hsched
      have hstatus : s'.status s.current = .dying :=
        (congrFun (congrArg (·.status) hsched) s.current).trans (Function.update_self ..)
      refine .inl (.of_same hrun hcurrent (congrArg (·.killed) hsched)
        (hsched ▸ h.queues.die (h.live hdead)) ?_ (fun _ => hplace') (.inr (.inl hstatus)))
      rw [Awake, hcurrent]
      exact .inr (.inr ⟨hstatus, hplace'⟩)
  | creates hrun hplace _ hsched =>
      have hstatus : s'.status = Function.update s.status (s.numThreads + 1) .blocked :=
        congrArg (·.status) hsched
      have hne : s.current ≠ s.numThreads + 1 := by
        have hle := h.valid.current.2
        omega
      refine .inl (h.afterSame hgoes hrun (congrArg (·.current) hsched)
        (congrArg (·.killed) hsched) (hsched ▸ h.queues.create hl) ?_
        fun hdying => absurd hdying hplace)
      rw [hstatus, Function.update_of_ne hne]
  | appends new hrun hplace _ hsched =>
      have hstatus : s'.status = s.status := congrArg (·.status) hsched
      refine .inl (h.afterSame hgoes hrun (congrArg (·.current) hsched)
        (congrArg (·.killed) hsched) ?_ (congrFun hstatus _)
        fun hdying => absurd (hplace.symm.trans hdying) nofun)
      rw [hsched]
      exact ⟨⟨h.queues.filed, h.queues.gone⟩, h.queues.current, h.queues.idle⟩
  | wakes t hrun hplace hfrom _ hsched =>
      have hstatus : s'.status = Function.update s.status t .ready := congrArg (·.status) hsched
      have ht : t ∈ s.created ∧ s.status t = .blocked ∧ t ≠ s.current := by
        rcases hfrom with ⟨hact, created, hplace⟩ | ⟨hblocked, r, hr, hwaiters⟩
        · refine ⟨h.roster.held _ h.valid.current.1 h.valid.current.2 t ?_,
            hfinds hact t created hplace, hother hact t created hplace⟩
          rw [hplace]
          rfl
        · have hmem : t ∈ (s.semas r).waiters := by
            rw [hwaiters]
            exact List.mem_cons_self
          refine ⟨h.roster.waiters r hr t hmem, hblocked, ?_⟩
          rintro rfl
          exact hruns hblocked r hr hmem
      refine .inl (h.afterSame hgoes hrun (congrArg (·.current) hsched)
        (congrArg (·.killed) hsched) ?_ ?_ fun hdying => absurd hdying hplace)
      · rw [hsched]
        exact SchedView.Queues.wake (v := s.sched) h.queues hl ht.1 ht.2.1 ht.2.2
      · rw [hstatus, Function.update_of_ne (Ne.symm ht.2.2)]
  | sleeps t hrun hact hplace hsched =>
      have hcurrent : s'.current = s.current := congrArg (·.current) hsched
      have hstatus : s'.status = Function.update s.status t .blocked := congrArg (·.status) hsched
      have hidle := h.booting.of_sleeping h.valid h.idleKept hplace
      have hqueues : s'.sched.Queues := by
        rw [hsched]
        exact SchedView.Queues.sleep (v := s.sched) h.queues hl fun h0 => absurd h0 hidle
      have hdying : s.place s.current ≠ .dying := by
        rw [hplace]
        exact nofun
      by_cases hself : t = s.current
      · subst hself
        have hblocked : s'.status s.current = .blocked := by
          rw [hstatus, Function.update_self]
        refine .inl (.of_same hrun hcurrent (congrArg (·.killed) hsched) hqueues ?_
          (fun hd => absurd hd hdying) (.inr (.inr ⟨hact, hplace⟩)))
        rw [Awake, hcurrent]
        refine .inr (.inl ⟨hblocked, fun hd => ?_⟩)
        rcases hgoes.dying hd with hbefore | ⟨hmark, -⟩
        · exact hdying hbefore
        · exact absurd (hblocked.symm.trans hmark) nofun
      · refine .inl (h.afterSame hgoes hrun hcurrent (congrArg (·.killed) hsched) hqueues ?_
          fun hd => absurd hd hdying)
        rw [hstatus, Function.update_of_ne (Ne.symm hself)]
  | idles hrun hplace hsched =>
      have hstatus : s'.status = s.status := congrArg (·.status) hsched
      have htwo : s.current = 2 := by
        apply (h.two_of_ofIdle h.valid.current.1 h.valid.current.2).mp
        rw [hplace]
        rfl
      refine .inl (h.afterSame hgoes hrun (congrArg (·.current) hsched)
        (congrArg (·.killed) hsched) ?_ (congrFun hstatus _)
        fun hdying => absurd (hplace.symm.trans hdying) nofun)
      rw [hsched]
      exact SchedView.Queues.startIdle (v := s.sched) h.queues hl.idle htwo
  | yields u hrun hflag hplace _ hsched =>
      exact .inl (h.afterYield hrun hflag (fun hdying => (hplace hdying).1) hsched)
  | blocks u hrun hflag hplace hbefore hsched =>
      exact .inl (h.afterBlock hrun hflag hplace hbefore hsched)
  | ends u hrun hflag hplace hplace' hsched =>
      rcases h.awake with hrunning | ⟨-, hnot⟩ | ⟨hdying, -⟩
      · right; left
        have hrunning : u.status u.current = .running := status_of_sched hsched hrunning
        rcases u.schedule_outcome hflag with hsame | ⟨hpanic, -⟩ | ⟨-, -, hnot⟩
        · exact absurd hrunning (u.schedule_running (hsame.trans hrun)).2.1
        · exact ⟨_, hpanic⟩
        · exact absurd hrunning hnot
      · exact absurd hplace hnot
      · exact .inl (h.afterEnd hrun hflag hplace hplace' hdying hsched).1

/-- The invariant holds after a step behind which the kernel goes on. -/
theorem Settled.step (h : s.Settled) (hfinds : s.FindsBlocked a) (hother : s.UnblocksOther a)
    (hruns : s.RunsOn) (hstep : s.step a = some s') :
    s'.outcome = .running ∧ s'.Settled ∧ s.After a s' ∨ (∃ p, s'.outcome = .panic p) ∨
      s.place s.current = .dead ∧ s'.outcome = .ranOff := by
  have hv := h.valid
  have hmoves := step_moves hv hstep
  have hgoes := step_goes h.prepared.started
    (h.prepared.used _ hv.current.1 hv.current.2) hstep
  rcases h.after hfinds hother hruns hgoes (step_effect hv h.prepared hstep) with
    hafter | hstops
  · left
    refine ⟨hafter.running, ?_, hafter⟩
    refine ⟨hv.step hstep, h.prepared.step hv hstep,
      h.idleKept.step hv h.prepared hstep, h.booting.step hv h.prepared h.idleKept hstep,
      h.roster.step hv h.prepared h.idleKept hstep hafter.running, hafter.queues, hafter.awake,
      fun t h0 hle hdead => ?_, fun t hk h0 => ?_, fun t h0 => ?_⟩
    · by_cases hcur : t = s.current
      · subst hcur
        rcases hgoes.dead hdead with hdead' | hdying
        · exact hafter.mem_killed (h.dead _ hv.current.1 hv.current.2 hdead')
        · exact hafter.dead hdying hdead
      · rcases hmoves.threads with hnum | ⟨hnum, function, -, hentry⟩
        · rw [hmoves.others t hcur (by omega)] at hdead
          exact hafter.mem_killed (h.dead t h0 (by omega) hdead)
        · by_cases hnew : t = s.numThreads + 1
          · rw [hnew, hentry] at hdead
            exact absurd hdead nofun
          · rw [hmoves.others t hcur (by omega)] at hdead
            exact hafter.mem_killed (h.dead t h0 (by omega) hdead)
    · have hold : t ∈ s.killed → s'.place t = .dead := by
        intro hk
        have hle := (h.roster.listed.created t ((h.roster.listed.killed t hk).resolve_left h0)).2
        by_cases hcur : t = s.current
        · subst hcur
          rw [step_dead (h.killed _ hk h0) hstep hafter.running]
          exact h.killed _ hk h0
        · rw [hmoves.others t hcur hle]
          exact h.killed t hk h0
      rcases hafter.killed with hsame | hnull | ⟨hcons, -, hdead⟩
      · exact hold (hsame ▸ hk)
      · rw [hnull] at hk
        exact hold ((List.mem_cons.mp hk).resolve_left h0)
      · rw [hcons] at hk
        rcases List.mem_cons.mp hk with rfl | hk
        · exact hdead
        · exact hold hk
    · have honce := h.once t h0
      rcases hafter.killed with hk | hk | ⟨hk, hdying, -⟩ <;> rw [hk]
      · exact honce
      · rwa [List.count_cons_of_ne (Ne.symm h0)]
      · by_cases hcur : s.current = t
        · subst hcur
          have hnot : s.current ∉ s.killed := h.live (by rw [hdying]; exact nofun)
          simp [List.count_eq_zero.mpr hnot]
        · rwa [List.count_cons_of_ne hcur]
  · exact .inr hstops

/-- A killed thread that nobody puts to sleep stays dying. -/
theorem Settled.buried (h : s.Settled) (hburied : s.sched.Buried) (hfinds : s.FindsBlocked a)
    (hlive : s.SleepsLive a) (heffect : s.Effect a s') (hrun : s'.outcome = .running) :
    s'.sched.Buried := by
  have hcurrent := h.live (h.not_dead hburied)
  have hscheduled : ∀ v : Kernel, v.sched.Leaving → v.sched.Listed → v.sched.Buried →
      v.schedule.outcome = .running → v.schedule.sched.Buried := by
    intro v hleaving hlisted hv hrun
    rw [sched_schedule hrun]
    exact hleaving.buried hlisted hv
  cases heffect with
  | panics p hpanic => simp [hpanic] at hrun
  | overruns _ hover => simp [hover] at hrun
  | quiet _ hsched _ =>
      rw [hsched]
      exact hburied
  | word st _ hsched _ =>
      rw [hsched]
      exact hburied.update rfl rfl fun _ h0 => absurd rfl h0
  | dies _ _ _ hsched =>
      rw [hsched]
      exact hburied.update rfl rfl fun _ _ => rfl
  | creates _ _ _ hsched =>
      rw [hsched]
      refine hburied.update rfl rfl fun hk h0 => ?_
      have hle := (h.roster.listed.created _ ((h.roster.listed.killed _ hk).resolve_left h0)).2
      exact absurd hle (Nat.not_succ_le_self _)
  | appends new _ _ _ hsched =>
      rw [hsched]
      exact hburied
  | wakes t _ _ hfrom _ hsched =>
      have ht : s.status t = .blocked := by
        rcases hfrom with ⟨hact, created, hplace⟩ | ⟨hblocked, -⟩
        · exact hfinds hact t created hplace
        · exact hblocked
      rw [hsched]
      exact hburied.update rfl rfl fun hk h0 =>
        absurd (ht.symm.trans (hburied t hk h0)) nofun
  | sleeps t _ hact hplace hsched =>
      rw [hsched]
      exact hburied.update rfl rfl fun hk h0 => absurd (hburied t hk h0) (hlive hact t hplace)
  | idles _ _ hsched =>
      rw [hsched]
      exact hburied
  | yields u _ _ _ _ hsched =>
      obtain ⟨hleaving, hlisted⟩ := h.leavingYield hsched
      refine hscheduled _ hleaving hlisted ?_ hrun
      rw [sched_requeue, hsched]
      exact hburied.update rfl rfl fun hk _ => absurd hk hcurrent
  | blocks u _ _ _ hbefore hsched =>
      obtain ⟨hleaving, hlisted⟩ := h.leavingBlock hbefore hsched
      refine hscheduled _ hleaving hlisted ?_ hrun
      have hlive : u.sched.current ∉ u.sched.killed := by
        rw [hsched]
        exact hcurrent
      exact SchedView.Buried.update (v := u.sched) (hsched ▸ hburied) rfl rfl fun hk _ =>
        absurd hk hlive
  | ends u _ hflag hplace _ hsched =>
      rcases h.awake with hrunning | ⟨-, hnot⟩ | ⟨hdying, -⟩
      · exact absurd (status_of_sched hsched hrunning) (u.schedule_running hrun).2.1
      · exact absurd hplace hnot
      · obtain ⟨hleaving, hlisted⟩ := h.leavingEnd hplace hdying hsched
        exact hscheduled _ hleaving hlisted (hsched ▸ hburied) hrun

/-- Besides, no thread has put itself or a finished thread to sleep. -/
structure Unslept (s : Kernel) : Prop where
  settled : s.Settled
  buried : s.sched.Buried
  marked : s.status s.current ≠ .blocked

theorem Unslept.step (h : s.Unslept) (hok : s.Orderly a) (hlive : s.SleepsLive a)
    (hstep : s.step a = some s') :
    s'.outcome = .running ∧ s'.Unslept ∨ ∃ p, s'.outcome = .panic p := by
  have hother : s.UnblocksOther a := by
    rintro hact t created hplace rfl
    exact h.marked (hok.1 hact _ created hplace)
  rcases h.settled.step hok.1 hother (fun hblocked => absurd hblocked h.marked) hstep with
    ⟨hrun, hsettled, hafter⟩ | hpanic | ⟨hdead, -⟩
  · refine .inl ⟨hrun, hsettled, h.settled.buried h.buried hok.1 hlive
      (step_effect h.settled.valid h.settled.prepared hstep) hrun, fun hblocked => ?_⟩
    have hne : s'.status s'.current ≠ .running := fun hrunning =>
      absurd (hblocked.symm.trans hrunning) nofun
    obtain ⟨hcurrent, hsame | hdying | ⟨hact, hself⟩⟩ := hafter.asleep hne
    · exact h.marked (hsame.symm.trans (hcurrent ▸ hblocked))
    · exact absurd ((hcurrent ▸ hblocked).symm.trans hdying) nofun
    · exact hok.2 hact _ hself rfl
  · exact .inr hpanic
  · exact absurd hdead (h.settled.not_dead h.buried)

theorem Start.settled (h : s.Start) : s.Settled := by
  have hthreads : ∀ t, t ≠ 0 → t ≤ s.numThreads → t = 1 ∨ t = 2 := by
    intro t h0 hle
    rw [h.numThreads] at hle
    omega
  refine ⟨h.valid, h.prepared, h.idleKept, h.booting, h.roster,
    ⟨⟨fun t h0 hle hne _ => ?_, ?_⟩, ?_, ?_⟩, .inl ?_, fun t h0 hle hdead => ?_,
    by simp [killed, h.kills], fun t _ => by simp [killed, h.kills]⟩
  · rcases hthreads t h0 hle with rfl | rfl
    · exact absurd h.current.symm hne
    · exact .inl ⟨h.idle, by simp [sched, h.ready]⟩
  · simp [SchedView.Gone, sched, killed, h.kills]
  · simp [sched, h.current, h.ready]
  · simp [sched, h.ready]
  · rw [h.current]
    exact h.kernel
  · rcases hthreads t h0 hle with rfl | rfl
    · rw [h.place₁] at hdead
      cases hdead
    · rw [h.place₂] at hdead
      cases hdead

theorem Start.buried (h : s.Start) : s.sched.Buried := by
  simp [SchedView.Buried, sched, killed, h.kills]

theorem Start.unslept (h : s.Start) : s.Unslept := by
  refine ⟨h.settled, h.buried, ?_⟩
  rw [h.current, h.kernel]
  exact nofun

end Kernel

/-- The invariant along every orderly run in which no finished thread is put to sleep. -/
theorem unslept_of_reach {allowed : Kernel → Action → Prop} {s : Kernel}
    (hallowed : ∀ s a, allowed s a → s.Orderly a ∧ s.SleepsLive a)
    (run : kernelMachine.Reach allowed s) :
    s.outcome = .running ∧ s.Unslept ∨ ∃ p, s.outcome = .panic p := by
  apply run.invariant
  · exact fun s h => .inl ⟨h.outcome, h.unslept⟩
  · rintro s a s' (⟨-, h⟩ | ⟨p, hp⟩) hok hstep
    · obtain ⟨hok, hlive⟩ := hallowed s a hok
      exact h.step hok hlive hstep
    · have hnone : s.step a = none := by simp [Kernel.step, hp]
      exact absurd (hnone.symm.trans hstep) nofun

namespace Kernel

variable (s : Kernel)

/-- The queues and the statuses agree. -/
structure QueuesAgree : Prop where
  current : s.current ∉ s.readyThreads
  running : ∀ t, s.isThread t = true → t ≠ s.current → s.status t ≠ .running
  filed : ∀ t, s.isThread t = true → t ≠ s.current → t ∉ s.killed →
    s.status t = .ready ∧ s.readyThreads.count t = 1 ∨
      s.status t = .blocked ∧ t ∉ s.readyThreads ∨
      t = s.idleThread ∧ t ∉ s.readyThreads
  killed : ∀ t ∈ s.killed, t ∉ s.readyThreads
  all : ∀ t, s.allThreads.count t = if t ∈ s.created ∧ t ∉ s.killed then 1 else 0
  idle : s.outcome ≠ .nullThread

variable {s}

theorem Unslept.queuesAgree (h : s.Unslept) (hrun : s.outcome = .running) : s.QueuesAgree := by
  have hqueues := h.settled.queues
  refine ⟨hqueues.current, fun t ht hne => ?_, fun t ht hne hk => ?_, fun t hk => ?_,
    h.settled.roster.listed.all, by simp [hrun]⟩
  · obtain ⟨h0, hle⟩ := isThread_iff.mp ht
    by_cases hgone : s.sched.Gone t
    · exact fun hrunning => absurd (hrunning.symm.trans hgone.2) nofun
    · exact (hqueues.filed t h0 hle hne hgone).not_running
  · obtain ⟨h0, hle⟩ := isThread_iff.mp ht
    rcases hqueues.filed t h0 hle hne fun hgone => hk hgone.1 with hready | hblocked | ⟨-, hidle⟩
    · exact .inl hready
    · exact .inr (.inl hblocked)
    · exact .inr (.inr hidle)
  · by_cases h0 : t = 0
    · subst h0
      have hlisted := h.settled.roster.listed
      exact fun hmem => (hlisted.created 0 (hlisted.ready 0 hmem)).1 rfl
    · exact (hqueues.gone t ⟨hk, h.buried t hk h0⟩ h0).2.1

variable (s)

/-- `FindsBlocked` as a test. -/
def findsBlocked : Action → Bool
  | .run _ => s.inHandler s.current ||
      match s.place s.current with
      | .unblocking t _ => decide (s.status t = .blocked)
      | _ => true
  | _ => true

variable {s} in
theorem findsBlocked_sound {a : Action} (h : s.findsBlocked a = true) : s.FindsBlocked a := by
  rintro ⟨hin, c, rfl⟩ t created hplace
  simp only [findsBlocked, hin, Bool.false_or, hplace] at h
  exact of_decide_eq_true h

/-- `UnblocksOther` as a test. -/
def unblocksOther : Action → Bool
  | .run _ => s.inHandler s.current ||
      match s.place s.current with
      | .unblocking t _ => decide (t ≠ s.current)
      | _ => true
  | _ => true

variable {s} in
theorem unblocksOther_sound {a : Action} (h : s.unblocksOther a = true) : s.UnblocksOther a := by
  rintro ⟨hin, c, rfl⟩ t created hplace
  simp only [unblocksOther, hin, Bool.false_or, hplace] at h
  exact of_decide_eq_true h

/-- `SleepsOther` as a test. -/
def sleepsOther : Action → Bool
  | .run _ => s.inHandler s.current ||
      match s.place s.current with
      | .sleeping t => decide (t ≠ s.current)
      | _ => true
  | _ => true

variable {s} in
theorem sleepsOther_sound {a : Action} (h : s.sleepsOther a = true) : s.SleepsOther a := by
  rintro ⟨hin, c, rfl⟩ t hplace
  simp only [sleepsOther, hin, Bool.false_or, hplace] at h
  exact of_decide_eq_true h

/-- `Orderly` as a test. -/
def orderly (a : Action) : Bool := s.findsBlocked a && s.sleepsOther a

variable {s} in
theorem orderly_sound {a : Action} (h : s.orderly a = true) : s.Orderly a := by
  simp only [orderly, Bool.and_eq_true] at h
  exact ⟨findsBlocked_sound h.1, sleepsOther_sound h.2⟩

/-- `SleepsLive` as a test. -/
def sleepsLive : Action → Bool
  | .run _ => s.inHandler s.current ||
      match s.place s.current with
      | .sleeping t => decide (s.status t ≠ .dying)
      | _ => true
  | _ => true

variable {s} in
theorem sleepsLive_sound {a : Action} (h : s.sleepsLive a = true) : s.SleepsLive a := by
  rintro ⟨hin, c, rfl⟩ t hplace
  simp only [sleepsLive, hin, Bool.false_or, hplace] at h
  exact of_decide_eq_true h

/-- `CreatesApart` as a test. -/
def createsApart (page : Nat → Nat) : Action → Bool
  | .run (.threadCreate _) => s.inHandler s.current || decide (s.place s.current ≠ .user) ||
      decide (s.intFlag = false ∧ ∀ t ∈ s.created,
        page t < page (s.numThreads + 1) ∨ page (s.numThreads + 1) + 4 ≤ page t)
  | _ => true

variable {s} in
theorem createsApart_sound {page : Nat → Nat} {a : Action} (h : s.createsApart page a = true) :
    s.CreatesApart page a := by
  rintro ⟨hin, -⟩ hplace ⟨null, rfl⟩
  simpa only [createsApart, hin, hplace, ne_eq, not_true_eq_false, decide_false, Bool.false_or,
    decide_eq_true_eq] using h

end Kernel

/-- In an orderly run in which no finished thread is put to sleep and threads are created apart,
the queues and the statuses agree in every state that is reached without a panic. -/
theorem queuesAgree_of_orderly {page : Nat → Nat} {s : Kernel}
    (run : kernelMachine.Reach
      (fun s a => s.Orderly a ∧ s.SleepsLive a ∧ s.CreatesApart page a) s)
    (hpanic : ∀ p, s.outcome ≠ .panic p) : s.QueuesAgree := by
  rcases unslept_of_reach (fun _ _ h => ⟨h.1, h.2.1⟩) run with ⟨hrun, h⟩ | ⟨p, hp⟩
  · exact h.queuesAgree hrun
  · exact absurd hp (hpanic p)

/-- The calls other than `thread_sleep`. -/
def Action.sleepless : Action → Bool
  | .run (.threadSleep _ _) => false
  | _ => true

/-- `thread_create` with interrupts off. -/
def createOff : List Action :=
  .run .intDisable :: .run (.threadCreate false) :: List.replicate 4 (.run .intEnable)

/-- The kernel thread, alone, creates a thread and lets it block. -/
def blockedThread : List Action :=
  List.replicate 7 (.run .intEnable) ++ createOff ++ [.run .threadYield, .run .intEnable,
    .run .intDisable, .run .threadBlock, .run .intEnable]

/-- Two threads unblock a third: the kernel thread is preempted behind its check. -/
theorem not_queuesAgree : ∃ s, kernelMachine.Reach (fun _ a => a.sleepless = true) s ∧
    (∀ p, s.outcome ≠ .panic p) ∧ ¬ s.QueuesAgree := by
  have hfields : ((startKernel.steps (fun _ a => a.sleepless)
      (blockedThread ++ createOff ++ [.run (.threadUnblock 3), .tick, .tick, .tick, .tick,
        .run .intEnable, .run (.threadUnblock 3), .run .intEnable, .run .threadYield,
        .run .intEnable, .run .intEnable])).map fun s =>
          (s.outcome, s.current, s.isThread 3, s.killed, s.readyThreads, s.idleThread)) =
            some (.running, 1, true, [], [3, 4, 3], 2) := by
    decide +kernel
  obtain ⟨s, hsteps, hs⟩ := Option.map_eq_some_iff.mp hfields
  simp only [Prod.mk.injEq] at hs
  obtain ⟨hrun, hcurrent, hthread, hkilled, hready, hidle⟩ := hs
  refine ⟨s, reach_steps (fun _ _ h => h) (fun _ _ _ _ h => h) (.start startKernel_start) hsteps,
    by simp [hrun], fun h => ?_⟩
  have hfiled := h.filed 3 hthread (by simp [hcurrent]) (by simp [hkilled])
  simp [hready, hidle] at hfiled

/-- A thread is created behind the others, blocks and is unblocked. -/
theorem queuesAgree_of_orderly_run : ∃ s : Kernel, s.readyThreads = [3] ∧
    s.allThreads = [1, 2, 3] ∧ s.QueuesAgree := by
  have hfields : ((startKernel.steps
      (fun s a => s.orderly a && s.sleepsLive a && s.createsApart id a)
      (blockedThread ++ [.run (.threadUnblock 3), .run .intEnable])).map fun s =>
        (s.outcome, s.readyThreads, s.allThreads)) = some (.running, [3], [1, 2, 3]) := by
    decide
  obtain ⟨s, hsteps, hs⟩ := Option.map_eq_some_iff.mp hfields
  simp only [Prod.mk.injEq] at hs
  obtain ⟨hrun, hready, hall⟩ := hs
  have run : kernelMachine.Reach
      (fun s a => s.Orderly a ∧ s.SleepsLive a ∧ s.CreatesApart id a) s := by
    refine reach_steps (fun s a h => ?_) (fun _ _ _ _ h => h) (.start startKernel_start) hsteps
    simp only [Bool.and_eq_true] at h
    exact ⟨Kernel.orderly_sound h.1.1, Kernel.sleepsLive_sound h.1.2,
      Kernel.createsApart_sound h.2⟩
  exact ⟨s, hready, hall, queuesAgree_of_orderly run (by simp [hrun])⟩

end NickOS3.Thread
