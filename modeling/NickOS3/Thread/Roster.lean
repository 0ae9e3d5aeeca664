import NickOS3.Thread.SemaEffects

/-!
# The list of all threads

`all_threads` has each thread that `thread_create` has listed and that is not killed, once.
Only listed threads are in the queues, wait for a semaphore or run; a thread that is still
to be listed is known to the thread that creates it alone.
-/

namespace NickOS3.Thread

open Foundation

/-- Listed threads alone are scheduled, and `all_threads` counts them. -/
structure SchedView.Listed (v : SchedView) : Prop where
  created : ∀ t ∈ v.created, t ≠ 0 ∧ t ≤ v.numThreads
  current : v.current ∈ v.created
  two : 2 ∈ v.created
  idle : v.idleThread = 0 ∨ v.idleThread = 2
  ready : ∀ t ∈ v.readyThreads, t ∈ v.created
  killed : ∀ t ∈ v.killed, t = 0 ∨ t ∈ v.created
  all : ∀ t, v.allThreads.count t = if t ∈ v.created ∧ t ∉ v.killed then 1 else 0

namespace SchedView.Listed

variable {v : SchedView}

theorem setStatus (h : v.Listed) (status : Nat → ThreadStatus) :
    ({ v with status := status }).Listed :=
  ⟨h.created, h.current, h.two, h.idle, h.ready, h.killed, h.all⟩

theorem requeue (h : v.Listed) : v.requeue.Listed := by
  refine ⟨h.created, h.current, h.two, h.idle, fun t ht => ?_, h.killed, h.all⟩
  unfold SchedView.requeue at ht ⊢
  dsimp only at ht ⊢
  split at ht
  · rcases List.mem_append.mp ht with ht | ht
    · exact h.ready t ht
    · rw [List.mem_singleton.mp ht]
      exact h.current
  · exact h.ready t ht

theorem selected (h : v.Listed) (h0 : v.selected ≠ 0) : v.selected ∈ v.created := by
  unfold SchedView.selected at h0 ⊢
  cases hready : v.readyThreads with
  | nil =>
      rw [hready] at h0
      have htwo : v.idleThread = 2 := h.idle.resolve_left h0
      simpa [htwo] using h.two
  | cons t rest => exact h.ready t (by simp [hready])

theorem dispatch (h : v.Listed) {next : Nat} (hnext : next ∈ v.created) :
    (v.dispatch next).Listed :=
  ⟨h.created, hnext, h.two, h.idle, fun t ht => h.ready t (List.mem_of_mem_tail ht), h.killed,
    h.all⟩

theorem reap (h : v.Listed) {prev : Nat} (hprev : prev = 0 ∨ prev ∈ v.created) :
    (v.reap prev).Listed := by
  unfold SchedView.reap
  split
  case isFalse => exact h
  case isTrue =>
    refine ⟨h.created, h.current, h.two, h.idle, fun t ht => h.ready t (List.mem_of_mem_erase ht),
      fun t ht => ?_, fun t => ?_⟩
    · rcases List.mem_cons.mp ht with rfl | ht
      · exact hprev
      · exact h.killed t ht
    · have hall := h.all t
      by_cases ht : t = prev
      · subst ht
        simp only [List.count_erase_self, hall, List.mem_cons, true_or, not_true_eq_false,
          and_false, if_false]
        split <;> rfl
      · simpa [List.count_erase_of_ne ht, ht] using hall

theorem schedule (h : v.Listed) (hselected : v.selected = v.current ∨ v.selected ≠ 0) :
    v.schedule.Listed := by
  have hnext : v.selected ∈ v.created := by
    rcases hselected with hsame | h0
    · rw [hsame]
      exact h.current
    · exact h.selected h0
  apply (h.dispatch hnext).reap
  split
  · exact .inl rfl
  · exact .inr h.current

theorem create (h : v.Listed) :
    ({ v with
      numThreads := v.numThreads + 1
      status := Function.update v.status (v.numThreads + 1) .blocked }).Listed :=
  ⟨fun t ht => ⟨(h.created t ht).1, Nat.le_succ_of_le (h.created t ht).2⟩, h.current, h.two,
    h.idle, h.ready, h.killed, h.all⟩

theorem append (h : v.Listed) {new : Nat} (hvalid : new ≠ 0 ∧ new ≤ v.numThreads)
    (hfresh : new ∉ v.created) :
    ({ v with allThreads := v.allThreads ++ [new], created := new :: v.created }).Listed := by
  refine ⟨fun t ht => ?_, List.mem_cons_of_mem _ h.current, List.mem_cons_of_mem _ h.two, h.idle,
    fun t ht => List.mem_cons_of_mem _ (h.ready t ht),
    fun t ht => (h.killed t ht).imp id (List.mem_cons_of_mem _), fun t => ?_⟩
  · rcases List.mem_cons.mp ht with rfl | ht
    · exact hvalid
    · exact h.created t ht
  · have hall := h.all t
    rw [List.count_append]
    by_cases ht : t = new
    · subst ht
      have hkilled : t ∉ v.killed := by
        intro hk
        rcases h.killed t hk with h0 | hc
        · exact hvalid.1 h0
        · exact hfresh hc
      rw [hall]
      simp [hfresh, hkilled]
    · have hne : new ≠ t := Ne.symm ht
      simp [hall, ht, hne]

theorem wake (h : v.Listed) {t : Nat} (ht : t ∈ v.created) :
    ({ v with
      status := Function.update v.status t .ready
      readyThreads := v.readyThreads ++ [t] }).Listed := by
  refine ⟨h.created, h.current, h.two, h.idle, fun u hu => ?_, h.killed, h.all⟩
  rcases List.mem_append.mp hu with hu | hu
  · exact h.ready u hu
  · rw [List.mem_singleton.mp hu]
    exact ht

theorem sleep (h : v.Listed) (t : Nat) :
    ({ v with
      status := Function.update v.status t .blocked
      readyThreads := v.readyThreads.erase t }).Listed :=
  ⟨h.created, h.current, h.two, h.idle, fun u hu => h.ready u (List.mem_of_mem_erase hu),
    h.killed, h.all⟩

end SchedView.Listed

namespace Kernel

/-- What is known of the created threads along a run. -/
structure Roster (s : Kernel) : Prop where
  listed : s.sched.Listed
  waiters : ∀ r ∈ s.initialised, ∀ t ∈ (s.semas r).waiters, t ∈ s.created
  held : ∀ u, u ≠ 0 → u ≤ s.numThreads → ∀ t, (s.place u).listed = some t → t ∈ s.created
  fresh : ∀ u, u ≠ 0 → u ≤ s.numThreads → ∀ t, s.place u = .createAppend t → t ∉ s.created
  alone : ∀ u v, u ≠ 0 → u ≤ s.numThreads → v ≠ 0 → v ≤ s.numThreads →
    ∀ t, s.place u = .createAppend t → s.place v = .createAppend t → u = v

variable {s s' : Kernel} {a : Action}

theorem Listed.schedule {u : Kernel} (h : u.sched.Listed) (hrun : u.schedule.outcome = .running) :
    u.schedule.sched.Listed := by
  rw [sched_schedule hrun]
  apply SchedView.Listed.schedule h
  obtain ⟨-, -, ⟨hsame, -⟩ | ⟨-, h0, -⟩⟩ := u.schedule_running hrun
  · exact .inl hsame
  · exact .inr h0

theorem Roster.effect (h : s.Roster) (hv : s.Valid) (hkept : s.IdleKept) (heffect : s.Effect a s')
    (hrun : s'.outcome = .running) : s'.sched.Listed := by
  have hl := h.listed
  cases heffect with
  | panics p hpanic => simp [hpanic] at hrun
  | overruns hplace hover => simp [hover] at hrun
  | quiet _ hsched _ =>
      rw [hsched]
      exact hl
  | word st _ hsched _ =>
      rw [hsched]
      exact hl.setStatus _
  | dies _ _ _ hsched =>
      rw [hsched]
      exact hl.setStatus _
  | creates _ _ _ hsched =>
      rw [hsched]
      exact hl.create
  | appends new _ hplace _ hsched =>
      rw [hsched]
      refine hl.append (hv.held _ hv.current.1 hv.current.2 new ?_)
        (h.fresh _ hv.current.1 hv.current.2 new hplace)
      rw [hplace]
      rfl
  | wakes t _ _ hfrom _ hsched =>
      rw [hsched]
      apply hl.wake
      rcases hfrom with ⟨-, created, hplace⟩ | ⟨-, r, hr, hwaiters⟩
      · apply h.held _ hv.current.1 hv.current.2 t
        rw [hplace]
        rfl
      · apply h.waiters r hr
        rw [hwaiters]
        exact List.mem_cons_self
  | sleeps t _ _ _ hsched =>
      rw [hsched]
      exact hl.sleep t
  | idles _ hplace hsched =>
      rw [hsched]
      have htwo : s.current = 2 := by
        apply (hkept.places _ hv.current.1 hv.current.2).mp
        rw [hplace]
        rfl
      exact ⟨hl.created, hl.current, hl.two, .inr htwo, hl.ready, hl.killed, hl.all⟩
  | yields u _ _ _ _ hsched =>
      apply Listed.schedule _ hrun
      rw [sched_requeue, hsched]
      exact hl.requeue
  | blocks u _ _ _ _ hsched =>
      apply Listed.schedule _ hrun
      exact SchedView.Listed.setStatus (v := u.sched) (hsched ▸ hl) _
  | ends u _ _ _ _ hsched =>
      apply Listed.schedule _ hrun
      rw [hsched]
      exact hl

/-- A step lists the thread that it has created, and no other. -/
theorem Effect.created (h : s.Effect a s') (hrun : s'.outcome = .running) :
    s'.created = s.created ∨ ∃ new, s.place s.current = .createAppend new ∧
      s'.created = new :: s.created ∧ s'.place s.current = .createUnblock new := by
  cases h with
  | panics p hpanic => simp [hpanic] at hrun
  | overruns hplace hover => simp [hover] at hrun
  | appends new _ hplace hplace' hsched =>
      exact .inr ⟨new, hplace, congrArg SchedView.created hsched, hplace'⟩
  | yields u _ _ _ _ hsched =>
      left
      rw [yieldOff_created]
      exact congrArg SchedView.created hsched
  | blocks u _ _ _ _ hsched =>
      left
      rw [schedule_created]
      exact congrArg SchedView.created hsched
  | ends u _ _ _ _ hsched =>
      left
      rw [schedule_created]
      exact congrArg SchedView.created hsched
  | quiet _ hsched _ | word _ _ hsched _ | dies _ _ _ hsched | creates _ _ _ hsched
  | wakes _ _ _ _ _ hsched | sleeps _ _ _ _ hsched | idles _ _ hsched =>
      exact .inl (congrArg SchedView.created hsched)

theorem Roster.step (h : s.Roster) (hv : s.Valid) (hprep : s.Prepared)
    (hkept : s.IdleKept) (hstep : s.step a = some s') (hrun : s'.outcome = .running) :
    s'.Roster := by
  have heffect := step_effect hv hprep hstep
  have hmoves := step_moves hv hstep
  have hgoes := step_goes hprep.started (hprep.used _ hv.current.1 hv.current.2) hstep
  have hcreated := heffect.created hrun
  have hmono : ∀ t ∈ s.created, t ∈ s'.created := by
    intro t ht
    rcases hcreated with hsame | ⟨new, -, hnew, -⟩
    · rwa [hsame]
    · rw [hnew]
      exact List.mem_cons_of_mem _ ht
  have hold : ∀ u, u ≠ 0 → u ≤ s'.numThreads → u ≠ s.current →
      s'.place u = s.place u ∧ u ≤ s.numThreads ∨ ∃ function, s'.place u = .entry function := by
    intro u h0 hle hcur
    rcases hmoves.threads with hnum | ⟨hnum, function, -, hentry⟩
    · exact .inl ⟨hmoves.others u hcur (by omega), by omega⟩
    · by_cases hnew : u = s.numThreads + 1
      · exact .inr ⟨function, hnew ▸ hentry⟩
      · exact .inl ⟨hmoves.others u hcur (by omega), by omega⟩
  have happend : ∀ u, u ≠ 0 → u ≤ s'.numThreads → ∀ t, s'.place u = .createAppend t →
      s.place u = .createAppend t ∧ u ≤ s.numThreads ∨ u = s.current ∧ t = s.numThreads + 1 := by
    intro u h0 hle t ht
    by_cases hcur : u = s.current
    · subst hcur
      rcases hgoes.appends t ht with hsame | ⟨hnew, -⟩
      · exact .inl ⟨hsame, hv.current.2⟩
      · exact .inr ⟨rfl, hnew⟩
    · rcases hold u h0 hle hcur with ⟨hsame, hle⟩ | ⟨function, hentry⟩
      · exact .inl ⟨hsame ▸ ht, hle⟩
      · rw [hentry] at ht
        exact absurd ht nofun
  have hbound : ∀ u, u ≠ 0 → u ≤ s.numThreads → ∀ t, s.place u = .createAppend t →
      t ≤ s.numThreads := by
    intro u h0 hle t ht
    refine (hv.held u h0 hle t ?_).2
    rw [ht]
    rfl
  refine ⟨h.effect hv hkept heffect hrun, fun r hr t ht => ?_, fun u h0 hle t ht => ?_,
    fun u h0 hle t ht => ?_, fun u v hu hule hv0 hvle t htu htv => ?_⟩
  · have hsema := step_semaEffect (r := r) hstep
    cases hsema with
    | panics p hpanic => simp [hpanic] at hrun
    | kept hinit hsema _ _ =>
        rw [hsema] at ht
        exact hmono t (h.waiters r (hinit.mp hr) t ht)
    | created value _ _ hsema _ _ => simp [hsema] at ht
    | taken hinit _ hsema _ _ =>
        rw [hsema] at ht
        exact hmono t (h.waiters r (hinit.mp hr) t ht)
    | queued hinit _ hsema _ _ _ =>
        rw [hsema] at ht
        rcases List.mem_append.mp ht with ht | ht
        · exact hmono t (h.waiters r (hinit.mp hr) t ht)
        · rw [List.mem_singleton.mp ht]
          exact hmono _ h.listed.current
    | raised hinit hsema _ _ _ =>
        rw [hsema] at ht
        exact hmono t (h.waiters r (hinit.mp hr) t (List.mem_of_mem_tail ht))
  · by_cases hcur : u = s.current
    · subst hcur
      rcases hgoes.listed t ht with hin | hbefore | ⟨-, hin⟩
      · exact hmono t hin
      · exact hmono t (h.held _ hv.current.1 hv.current.2 t hbefore)
      · exact hin
    · rcases hold u h0 hle hcur with ⟨hsame, hle⟩ | ⟨function, hentry⟩
      · exact hmono t (h.held u h0 hle t (hsame ▸ ht))
      · rw [hentry] at ht
        exact absurd ht nofun
  · have hnot : t ∉ s.created := by
      rcases happend u h0 hle t ht with ⟨hbefore, hle⟩ | ⟨-, hnew⟩
      · exact h.fresh u h0 hle t hbefore
      · intro hin
        have hlt := (h.listed.created t hin).2
        have hnum : s.sched.numThreads = s.numThreads := rfl
        omega
    rcases hcreated with hsame | ⟨new, hplace, hnew, hplace'⟩
    · rwa [hsame]
    · rw [hnew, List.mem_cons]
      rintro (rfl | hin)
      · rcases happend u h0 hle t ht with ⟨hbefore, hle⟩ | ⟨-, hfresh⟩
        · have hcur := h.alone u _ h0 hle hv.current.1 hv.current.2 t hbefore hplace
          rw [hcur, hplace'] at ht
          exact absurd ht nofun
        · have hle := hbound _ hv.current.1 hv.current.2 t hplace
          omega
      · exact hnot hin
  · rcases happend u hu hule t htu with ⟨hub, hule⟩ | ⟨rfl, hnew⟩ <;>
      rcases happend v hv0 hvle t htv with ⟨hvb, hvle⟩ | ⟨rfl, hnew'⟩
    · exact h.alone u v hu hule hv0 hvle t hub hvb
    · have hle := hbound u hu hule t hub
      omega
    · have hle := hbound v hv0 hvle t hvb
      omega
    · rfl

theorem Start.roster (h : s.Start) : s.Roster := by
  have hplace : ∀ u, u ≠ 0 → u ≤ s.numThreads →
      s.place u = .initDown ∨ s.place u = .entry .idle := by
    intro u h0 hle
    rw [h.numThreads] at hle
    obtain rfl | rfl : u = 1 ∨ u = 2 := by omega
    · exact .inl h.place₁
    · exact .inr h.place₂
  refine ⟨⟨?_, ?_, ?_, ?_, ?_, ?_, ?_⟩, ?_, ?_, ?_, ?_⟩
  · simp [sched, h.created, h.numThreads]
  · simp [sched, h.created, h.current]
  · simp [sched, h.created]
  · simp [sched, h.idleThread]
  · simp [sched, h.created, h.ready]
  · simp [sched, killed, h.kills]
  · intro t
    simp only [sched, h.all, h.created, killed, h.kills, List.map_nil, List.not_mem_nil,
      not_false_eq_true, and_true, List.count_cons, List.count_nil, List.mem_cons, or_false]
    by_cases h1 : t = 1
    · simp [h1]
    · by_cases h2 : t = 2
      · simp [h2]
      · have h1' : ¬ 1 = t := Ne.symm h1
        have h2' : ¬ 2 = t := Ne.symm h2
        simp [h1, h2, h1', h2']
  · intro r hr t ht
    rw [h.initialised] at hr
    obtain rfl := List.mem_singleton.mp hr
    simp [h.started] at ht
  · intro u h0 hle t ht
    rcases hplace u h0 hle with hp | hp <;> simp [hp, Place.listed] at ht
  · intro u h0 hle t ht
    rcases hplace u h0 hle with hp | hp <;> simp [hp] at ht
  · intro u v h0 hle _ _ t ht
    rcases hplace u h0 hle with hp | hp <;> simp [hp] at ht

end Kernel

end NickOS3.Thread
