import NickOS3.Thread.Roster

/-!
# The ready queue

A thread that does not run is ready and in the ready queue once, or blocked and not in it;
only the idle thread is ready outside of it. `thread_unblock` looks at the status of its
thread before it disables interrupts, so this rests on the status still being blocked when
the thread is appended.
-/

namespace NickOS3.Thread

open Foundation

namespace SchedView

variable (v : SchedView)

/-- Where a thread that does not run is kept. -/
def Filed (t : Nat) : Prop :=
  v.status t = .ready ∧ v.readyThreads.count t = 1 ∨
    v.status t = .blocked ∧ t ∉ v.readyThreads ∨
    v.status t = .ready ∧ t = v.idleThread ∧ t ∉ v.readyThreads

/-- A killed thread that has not been put to sleep since. -/
def Gone (t : Nat) : Prop := t ∈ v.killed ∧ v.status t = .dying

/-- All threads but the running one are filed or gone. -/
structure Filing : Prop where
  filed : ∀ t, t ≠ 0 → t ≤ v.numThreads → t ≠ v.current → ¬ v.Gone t → v.Filed t
  gone : ∀ t, v.Gone t → t ≠ 0 → t ≠ v.current ∧ t ∉ v.readyThreads ∧ t ≠ 2

/-- The queues while a thread runs. -/
structure Queues : Prop extends v.Filing where
  current : v.current ∉ v.readyThreads
  idle : v.idleThread = 0 → 2 ∈ v.readyThreads ∨ v.current = 2

/-- The queues in front of `schedule`. -/
structure Leaving : Prop extends v.Filing where
  own : v.Filed v.current ∨ v.status v.current = .dying ∧ v.current ∉ v.readyThreads ∧ v.current ≠ 2
  idle : v.idleThread = 0 → 2 ∈ v.readyThreads

section Fields

theorem reap_eq (prev : Nat) : v.reap prev = { v with
    allThreads := (v.reap prev).allThreads
    readyThreads := (v.reap prev).readyThreads
    killed := (v.reap prev).killed } := by
  unfold reap
  split <;> rfl

@[simp] theorem schedule_current : v.schedule.current = v.selected := by
  rw [schedule, reap_eq]
  rfl

@[simp] theorem schedule_status :
    v.schedule.status = Function.update v.status v.selected .running := by
  rw [schedule, reap_eq]
  rfl

@[simp] theorem schedule_idleThread : v.schedule.idleThread = v.idleThread := by
  rw [schedule, reap_eq]
  rfl

@[simp] theorem schedule_numThreads : v.schedule.numThreads = v.numThreads := by
  rw [schedule, reap_eq]
  rfl

end Fields

variable {v}

theorem Filed.count {t : Nat} (h : v.Filed t) (ht : t ∈ v.readyThreads) :
    v.readyThreads.count t = 1 := by
  rcases h with ⟨-, hcount⟩ | ⟨-, hnot⟩ | ⟨-, -, hnot⟩
  · exact hcount
  · exact absurd ht hnot
  · exact absurd ht hnot

theorem Filed.ready {t : Nat} (h : v.Filed t) (ht : t ∈ v.readyThreads) :
    v.status t = .ready := by
  rcases h with ⟨hready, -⟩ | ⟨-, hnot⟩ | ⟨-, -, hnot⟩
  · exact hready
  · exact absurd ht hnot
  · exact absurd ht hnot

theorem Filed.not_dying {t : Nat} (h : v.Filed t) : v.status t ≠ .dying := by
  rcases h with ⟨hstatus, -⟩ | ⟨hstatus, -⟩ | ⟨hstatus, -, -⟩ <;> simp [hstatus]

theorem Filed.not_running {t : Nat} (h : v.Filed t) : v.status t ≠ .running := by
  rcases h with ⟨hstatus, -⟩ | ⟨hstatus, -⟩ | ⟨hstatus, -, -⟩ <;> simp [hstatus]

/-! ## Scheduling -/

theorem selected_cases (hidle : v.idleThread = 0 ∨ v.idleThread = 2)
    (hkept : v.idleThread = 0 → 2 ∈ v.readyThreads) :
    v.selected ∈ v.readyThreads ∨ v.readyThreads = [] ∧ v.selected = 2 := by
  unfold selected
  cases hready : v.readyThreads with
  | nil =>
      right
      refine ⟨rfl, hidle.resolve_left fun h0 => ?_⟩
      have hmem := hkept h0
      simp [hready] at hmem
  | cons t rest => simp

theorem mem_tail_iff {t : Nat} (ht : t ≠ v.selected) :
    t ∈ v.readyThreads.tail ↔ t ∈ v.readyThreads := by
  unfold selected at ht
  cases hready : v.readyThreads with
  | nil => simp
  | cons n rest =>
      have hne : t ≠ n := by simpa [hready] using ht
      simp [hne]

theorem count_tail_of_ne {t : Nat} (ht : t ≠ v.selected) :
    v.readyThreads.tail.count t = v.readyThreads.count t := by
  unfold selected at ht
  cases hready : v.readyThreads with
  | nil => simp
  | cons n rest =>
      have hne : n ≠ t := by
        rintro rfl
        exact ht (by simp [hready])
      simp [hne]

namespace Leaving

theorem count (h : v.Leaving) (hl : v.Listed) {t : Nat} (ht : t ∈ v.readyThreads) :
    v.readyThreads.count t = 1 := by
  obtain ⟨h0, hle⟩ := hl.created t (hl.ready t ht)
  by_cases hcur : t = v.current
  · subst hcur
    rcases h.own with hfiled | ⟨-, hnot, -⟩
    · exact hfiled.count ht
    · exact absurd ht hnot
  · refine (h.filed t h0 hle hcur fun hgone => ?_).count ht
    exact (h.gone t hgone h0).2.1 ht

theorem ready_of_mem (h : v.Leaving) (hl : v.Listed) {t : Nat} (ht : t ∈ v.readyThreads) :
    v.status t = .ready := by
  obtain ⟨h0, hle⟩ := hl.created t (hl.ready t ht)
  by_cases hcur : t = v.current
  · subst hcur
    rcases h.own with hfiled | ⟨-, hnot, -⟩
    · exact hfiled.ready ht
    · exact absurd ht hnot
  · refine (h.filed t h0 hle hcur fun hgone => ?_).ready ht
    exact (h.gone t hgone h0).2.1 ht

/-- A blocked thread is not selected. -/
theorem selected_ne (h : v.Leaving) (hl : v.Listed) {t : Nat} (hblocked : v.status t = .blocked)
    (htwo : t ≠ 2) : t ≠ v.selected := by
  rintro rfl
  rcases selected_cases hl.idle h.idle with hmem | ⟨-, hsel⟩
  · rw [h.ready_of_mem hl hmem] at hblocked
    exact absurd hblocked nofun
  · exact htwo hsel

/-- The thread that is selected leaves the queue. -/
theorem selected_notMem (h : v.Leaving) (hl : v.Listed) :
    v.selected ∉ v.readyThreads.tail := by
  unfold SchedView.selected
  cases hready : v.readyThreads with
  | nil => simp
  | cons n rest =>
      have hone := h.count hl (t := n) (by simp [hready])
      rw [hready, List.count_cons_self] at hone
      have hzero : rest.count n = 0 := by omega
      simpa using List.count_eq_zero.mp hzero

theorem selected_ne_zero (h : v.Leaving) (hl : v.Listed) : v.selected ≠ 0 := by
  rcases selected_cases hl.idle h.idle with hmem | ⟨-, htwo⟩
  · exact (hl.created _ (hl.ready _ hmem)).1
  · omega

/-- `schedule` pops the queue, and what it kills is the dying thread that it leaves, or
null. -/
theorem reaped (h : v.Leaving) (hl : v.Listed) :
    v.schedule.readyThreads = v.readyThreads.tail ∧
      (v.schedule.killed = v.killed ∧ v.schedule.allThreads = v.allThreads ∧
          (v.selected ≠ v.current → v.status v.current ≠ .dying) ∨
        v.schedule.killed = 0 :: v.killed ∧ v.schedule.allThreads = v.allThreads ∧
          v.selected = v.current ∨
        v.schedule.killed = v.current :: v.killed ∧
          v.schedule.allThreads = v.allThreads.erase v.current ∧ v.selected ≠ v.current ∧
          v.status v.current = .dying) := by
  unfold SchedView.schedule reap dispatch
  by_cases hsame : v.selected = v.current
  · rw [if_pos hsame]
    dsimp only
    split
    · have h0 : 0 ∉ v.readyThreads.tail := fun hmem =>
        (hl.created 0 (hl.ready 0 (List.mem_of_mem_tail hmem))).1 rfl
      have hall : 0 ∉ v.allThreads := by
        have hcount := hl.all 0
        rw [if_neg fun hin => (hl.created 0 hin.1).1 rfl] at hcount
        exact List.count_eq_zero.mp hcount
      exact ⟨List.erase_of_not_mem h0, .inr (.inl ⟨rfl, List.erase_of_not_mem hall, hsame⟩)⟩
    · exact ⟨rfl, .inl ⟨rfl, rfl, fun hne => absurd hsame hne⟩⟩
  · rw [if_neg hsame]
    dsimp only
    split
    case isTrue hdying =>
      rw [Function.update_of_ne (Ne.symm hsame)] at hdying
      have hnot : v.current ∉ v.readyThreads := by
        rcases h.own with hfiled | ⟨-, hnot, -⟩
        · exact absurd hdying hfiled.not_dying
        · exact hnot
      exact ⟨List.erase_of_not_mem fun hmem => hnot (List.mem_of_mem_tail hmem),
        .inr (.inr ⟨rfl, rfl, hsame, hdying⟩)⟩
    case isFalse hdying =>
      rw [Function.update_of_ne (Ne.symm hsame)] at hdying
      exact ⟨rfl, .inl ⟨rfl, rfl, fun _ => hdying⟩⟩

/-- A thread that is not selected stays filed. -/
theorem filed_schedule (h : v.Leaving) (hl : v.Listed) {t : Nat} (ht : t ≠ v.selected)
    (hfiled : v.Filed t) : v.schedule.Filed t := by
  have hready := (h.reaped hl).1
  have hstatus : v.schedule.status t = v.status t := by
    rw [schedule_status, Function.update_of_ne ht]
  have hmem : t ∈ v.schedule.readyThreads ↔ t ∈ v.readyThreads := by
    rw [hready]
    exact mem_tail_iff ht
  unfold Filed at hfiled ⊢
  rw [hstatus, hmem, schedule_idleThread, hready, count_tail_of_ne ht]
  exact hfiled

/-- A thread that is gone is not selected. -/
theorem gone_ne_selected (h : v.Leaving) (hl : v.Listed) {t : Nat} (ht : v.Gone t) (h0 : t ≠ 0) :
    t ≠ v.selected := by
  rintro rfl
  obtain ⟨-, hnot, htwo⟩ := h.gone _ ht h0
  rcases selected_cases hl.idle h.idle with hmem | ⟨-, hsel⟩
  · exact hnot hmem
  · exact htwo hsel

/-- Killed threads stay killed. -/
theorem killed_schedule (h : v.Leaving) (hl : v.Listed) {t : Nat} (ht : t ∈ v.killed) :
    t ∈ v.schedule.killed := by
  obtain ⟨-, ⟨hkilled, -⟩ | ⟨hkilled, -⟩ | ⟨hkilled, -⟩⟩ := h.reaped hl <;> rw [hkilled]
  · exact ht
  · exact List.mem_cons_of_mem _ ht
  · exact List.mem_cons_of_mem _ ht

/-- A thread that is killed by `schedule` is the one that it leaves, which is dying. -/
theorem mem_killed_schedule (h : v.Leaving) (hl : v.Listed) {t : Nat}
    (ht : t ∈ v.schedule.killed) (h0 : t ≠ 0) : t ∈ v.killed ∨
      t = v.current ∧ v.selected ≠ v.current ∧ v.status v.current = .dying := by
  obtain ⟨-, ⟨hkilled, -⟩ | ⟨hkilled, -⟩ | ⟨hkilled, -, hne, hdying⟩⟩ := h.reaped hl <;>
    rw [hkilled] at ht
  · exact .inl ht
  · exact .inl ((List.mem_cons.mp ht).resolve_left h0)
  · rcases List.mem_cons.mp ht with rfl | ht
    · exact .inr ⟨rfl, hne, hdying⟩
    · exact .inl ht

/-- The queues behind `schedule`. -/
theorem schedule (h : v.Leaving) (hl : v.Listed) : v.schedule.Queues := by
  have hready := (h.reaped hl).1
  have hstatus : ∀ t, t ≠ v.selected → v.schedule.status t = v.status t := fun t hne => by
    rw [schedule_status, Function.update_of_ne hne]
  refine ⟨⟨fun t h0 hle hne hgone => ?_, fun t hgone h0 => ?_⟩, ?_, fun hidle => ?_⟩
  · rw [schedule_numThreads] at hle
    rw [schedule_current] at hne
    apply h.filed_schedule hl hne
    by_cases hcur : t = v.current
    · subst hcur
      rcases h.own with hfiled | ⟨hdying, -, -⟩
      · exact hfiled
      · obtain ⟨-, ⟨-, -, hlive⟩ | ⟨-, -, hsame⟩ | ⟨hkilled, -⟩⟩ := h.reaped hl
        · exact absurd hdying (hlive (Ne.symm hne))
        · exact absurd hsame.symm hne
        · refine absurd ⟨?_, (hstatus _ hne).trans hdying⟩ hgone
          rw [hkilled]
          exact List.mem_cons_self
    · exact h.filed t h0 hle hcur fun hold =>
        hgone ⟨h.killed_schedule hl hold.1, (hstatus t hne).trans hold.2⟩
  · have hne : t ≠ v.selected := by
      rintro rfl
      have hrunning := hgone.2
      rw [schedule_status, Function.update_self] at hrunning
      exact absurd hrunning nofun
    have hdying : v.status t = .dying := (hstatus t hne).symm.trans hgone.2
    have hold : t ∉ v.readyThreads ∧ t ≠ 2 := by
      rcases h.mem_killed_schedule hl hgone.1 h0 with hk | ⟨rfl, -⟩
      · exact (h.gone t ⟨hk, hdying⟩ h0).2
      · rcases h.own with hfiled | ⟨-, hnot, htwo⟩
        · exact absurd hdying hfiled.not_dying
        · exact ⟨hnot, htwo⟩
    rw [schedule_current, hready, mem_tail_iff hne]
    exact ⟨hne, hold⟩
  · rw [schedule_current, hready]
    exact h.selected_notMem hl
  · rw [schedule_idleThread] at hidle
    rw [hready, schedule_current]
    by_cases htwo : 2 = v.selected
    · exact .inr htwo.symm
    · exact .inl ((mem_tail_iff htwo).mpr (h.idle hidle))

end Leaving

variable (v) in
/-- No killed thread has been put to sleep. -/
def Buried : Prop := ∀ t ∈ v.killed, t ≠ 0 → v.status t = .dying

theorem Buried.update (h : v.Buried) {w : SchedView} {t : Nat} {st : ThreadStatus}
    (hkilled : w.killed = v.killed) (hstatus : w.status = Function.update v.status t st)
    (ht : t ∈ v.killed → t ≠ 0 → st = .dying) : w.Buried := by
  intro u hk h0
  rw [hkilled] at hk
  rw [hstatus]
  by_cases hut : u = t
  · subst hut
    rw [Function.update_self]
    exact ht hk h0
  · rw [Function.update_of_ne hut]
    exact h u hk h0

theorem Leaving.buried (h : v.Leaving) (hl : v.Listed) (hburied : v.Buried) :
    v.schedule.Buried := by
  intro t hk h0
  rw [schedule_status]
  rcases h.mem_killed_schedule hl hk h0 with hold | ⟨rfl, hne, hdying⟩
  · have hdying := hburied t hold h0
    rw [Function.update_of_ne (h.gone_ne_selected hl ⟨hold, hdying⟩ h0)]
    exact hdying
  · rw [Function.update_of_ne (Ne.symm hne)]
    exact hdying

/-! ## The other changes -/

namespace Queues

theorem word (h : v.Queues) (st : ThreadStatus) :
    ({ v with status := Function.update v.status 0 st }).Queues := by
  refine ⟨⟨fun t h0 hle hne hgone => ?_, fun t hgone h0 => ?_⟩, h.current, h.idle⟩
  · simpa [Filed, h0] using h.filed t h0 hle hne (by simpa [Gone, h0] using hgone)
  · exact h.gone t (by simpa [Gone, h0] using hgone) h0

theorem die (h : v.Queues) (hlive : v.current ∉ v.killed) :
    ({ v with status := Function.update v.status v.current .dying }).Queues := by
  refine ⟨⟨fun t h0 hle hne hgone => ?_, fun t hgone h0 => ?_⟩, h.current, h.idle⟩
  · have hne' : t ≠ v.current := hne
    simpa [Filed, hne'] using h.filed t h0 hle hne (by simpa [Gone, hne'] using hgone)
  · have hne : t ≠ v.current := by
      rintro rfl
      exact hlive hgone.1
    exact h.gone t (by simpa [Gone, hne] using hgone) h0

theorem create (h : v.Queues) (hl : v.Listed) :
    ({ v with
      numThreads := v.numThreads + 1
      status := Function.update v.status (v.numThreads + 1) .blocked }).Queues := by
  have hnew : ∀ t ∈ v.created, t ≠ v.numThreads + 1 := by
    intro t ht
    have hle := (hl.created t ht).2
    omega
  refine ⟨⟨fun t h0 hle hne hgone => ?_, fun t hgone h0 => ?_⟩, h.current, h.idle⟩
  · by_cases ht : t = v.numThreads + 1
    · subst ht
      have hnot : v.numThreads + 1 ∉ v.readyThreads := fun hmem => hnew _ (hl.ready _ hmem) rfl
      exact .inr (.inl ⟨by simp, hnot⟩)
    · have hle' : t ≤ v.numThreads + 1 := hle
      simpa [Filed, ht] using h.filed t h0 (by omega) hne (by simpa [Gone, ht] using hgone)
  · have hne := hnew t ((hl.killed t hgone.1).resolve_left h0)
    exact h.gone t (by simpa [Gone, hne] using hgone) h0

theorem wake (h : v.Queues) (hl : v.Listed) {t : Nat} (ht : t ∈ v.created)
    (hstatus : v.status t = .blocked) (hne : t ≠ v.current) :
    ({ v with
      status := Function.update v.status t .ready
      readyThreads := v.readyThreads ++ [t] }).Queues := by
  obtain ⟨h0, hle⟩ := hl.created t ht
  have hnot : t ∉ v.readyThreads := by
    have hlive : ¬ v.Gone t := fun hgone => absurd (hstatus.symm.trans hgone.2) nofun
    rcases h.filed t h0 hle hne hlive with ⟨hready, -⟩ | ⟨-, hnot⟩ | ⟨-, -, hnot⟩
    · rw [hstatus] at hready
      exact absurd hready nofun
    · exact hnot
    · exact hnot
  refine ⟨⟨fun u hu hule hune hgone => ?_, fun u hgone hu => ?_⟩, ?_, fun hidle => ?_⟩
  · by_cases hut : u = t
    · subst hut
      exact .inl ⟨by simp, by simp [List.count_append, List.count_eq_zero.mpr hnot]⟩
    · have hut' : t ≠ u := Ne.symm hut
      simpa [Filed, hut, List.count_append, hut'] using
        h.filed u hu hule hune (by simpa [Gone, hut] using hgone)
  · have hut : u ≠ t := by
      rintro rfl
      exact absurd hgone.2 (by simp)
    simpa [hut] using h.gone u (by simpa [Gone, hut] using hgone) hu
  · simpa using ⟨h.current, Ne.symm hne⟩
  · exact (h.idle hidle).imp (List.mem_append_left _) id

theorem count (h : v.Queues) (hl : v.Listed) {t : Nat} (ht : t ∈ v.readyThreads) :
    v.readyThreads.count t = 1 := by
  obtain ⟨h0, hle⟩ := hl.created t (hl.ready t ht)
  refine (h.filed t h0 hle ?_ fun hgone => ?_).count ht
  · rintro rfl
    exact h.current ht
  · exact (h.gone t hgone h0).2.1 ht

theorem ready_of_mem (h : v.Queues) (hl : v.Listed) {t : Nat} (ht : t ∈ v.readyThreads) :
    v.status t = .ready := by
  obtain ⟨h0, hle⟩ := hl.created t (hl.ready t ht)
  refine (h.filed t h0 hle ?_ fun hgone => ?_).ready ht
  · rintro rfl
    exact h.current ht
  · exact (h.gone t hgone h0).2.1 ht

theorem sleep (h : v.Queues) (hl : v.Listed) {t : Nat} (hidle : v.idleThread = 0 → t ≠ 2) :
    ({ v with
      status := Function.update v.status t .blocked
      readyThreads := v.readyThreads.erase t }).Queues := by
  have hnot : t ∉ v.readyThreads.erase t := by
    rw [← List.count_eq_zero, List.count_erase_self]
    by_cases hmem : t ∈ v.readyThreads
    · rw [h.count hl hmem]
    · rw [List.count_eq_zero.mpr hmem]
  refine ⟨⟨fun u hu hule hune hgone => ?_, fun u hgone hu => ?_⟩, ?_, fun h0 => ?_⟩
  · by_cases hut : u = t
    · subst hut
      exact .inr (.inl ⟨by simp, hnot⟩)
    · simpa [Filed, hut, List.count_erase_of_ne, List.mem_erase_of_ne] using
        h.filed u hu hule hune (by simpa [Gone, hut] using hgone)
  · have hut : u ≠ t := by
      rintro rfl
      exact absurd hgone.2 (by simp)
    simpa [hut, List.mem_erase_of_ne] using h.gone u (by simpa [Gone, hut] using hgone) hu
  · exact fun hmem => h.current (List.mem_of_mem_erase hmem)
  · exact (h.idle h0).imp (List.mem_erase_of_ne (Ne.symm (hidle h0))).mpr id

theorem startIdle (h : v.Queues) (hidle : v.idleThread = 0 ∨ v.idleThread = 2)
    (htwo : v.current = 2) : ({ v with idleThread := v.current }).Queues := by
  refine ⟨⟨fun t h0 hle hne hgone => ?_, h.gone⟩, h.current, fun _ => .inr htwo⟩
  have hne' : t ≠ v.current := hne
  rcases h.filed t h0 hle hne hgone with hready | hblocked | ⟨-, heq, -⟩
  · exact .inl hready
  · exact .inr (.inl hblocked)
  · rcases hidle with hzero | hidle
    · exact absurd (heq.trans hzero) h0
    · exact absurd (heq.trans (hidle.trans htwo.symm)) hne'

/-! ## In front of `schedule` -/

theorem requeue (h : v.Queues) (hl : v.Listed) : v.requeue.Leaving := by
  have hcur := (hl.created _ hl.current).1
  refine ⟨⟨fun t h0 hle hne hgone => ?_, fun t hgone h0 => ?_⟩, .inl ?_, fun hidle => ?_⟩
  · have hne' : t ≠ v.current := hne
    have hold := h.filed t h0 hle hne (by simpa [Gone, SchedView.requeue, hne'] using hgone)
    unfold SchedView.requeue Filed at *
    dsimp only
    rw [Function.update_of_ne hne']
    split
    · simpa [List.count_append, Ne.symm hne', hne'] using hold
    · exact hold
  · have hne : t ≠ v.current := by
      rintro rfl
      exact absurd hgone.2 (by simp)
    have hold := h.gone t (by simpa [Gone, SchedView.requeue, hne] using hgone) h0
    unfold SchedView.requeue
    dsimp only
    split
    · simpa [hne] using hold
    · exact hold
  · unfold SchedView.requeue Filed
    dsimp only
    split
    · exact .inl ⟨by simp, by simp [List.count_append, List.count_eq_zero.mpr h.current]⟩
    case isFalse hidle =>
      exact .inr (.inr ⟨by simp, not_not.mp hidle, h.current⟩)
  · have hne : v.current ≠ v.idleThread := by
      rw [show v.idleThread = 0 from hidle]
      exact hcur
    unfold SchedView.requeue
    dsimp only
    rw [if_pos hne]
    rcases h.idle hidle with hmem | htwo
    · exact List.mem_append_left _ hmem
    · simp [htwo]

theorem block (h : v.Queues) (htwo : v.current = 2 → v.idleThread ≠ 0) :
    ({ v with status := Function.update v.status v.current .blocked }).Leaving := by
  refine ⟨⟨fun t h0 hle hne hgone => ?_, fun t hgone h0 => ?_⟩,
    .inl (.inr (.inl ⟨by simp, h.current⟩)), fun hidle => ?_⟩
  · have hne' : t ≠ v.current := hne
    simpa [Filed, hne'] using h.filed t h0 hle hne (by simpa [Gone, hne'] using hgone)
  · have hne : t ≠ v.current := by
      rintro rfl
      exact absurd hgone.2 (by simp)
    exact h.gone t (by simpa [Gone, hne] using hgone) h0
  · exact (h.idle hidle).resolve_right fun hcur => htwo hcur hidle

theorem finish (h : v.Queues) (hdying : v.status v.current = .dying) (htwo : v.current ≠ 2) :
    v.Leaving :=
  ⟨h.toFiling, .inr ⟨hdying, h.current, htwo⟩, fun hidle => (h.idle hidle).resolve_right htwo⟩

end Queues

end SchedView

end NickOS3.Thread
