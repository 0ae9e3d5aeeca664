import NickOS3.Thread.Table

/-!
# The places of the threads

A step moves the running thread and may make a new one. Where every other thread continues
stays as it is. A semaphore that a thread is in the middle of using is set up, and the
places of `idle` belong to the idle thread.
-/

namespace NickOS3.Thread

open Foundation

namespace Place

/-- The semaphore that a thread at this place is going to use. -/
def sema : Place → Option SemaRef
  | .waiting r _ => some r
  | .accquireDown l | .setHolder l | .clearHolder l | .releaseUp l => some (.lock l)
  | _ => none

/-- The places of `idle`. -/
def ofIdle : Place → Bool
  | .entry .idle | .idleStart | .idleUp | .idleLoop | .idleBlock | .idleHlt => true
  | _ => false

/-- The places of `idle` where `idle_thread` is not set yet. -/
def beforeIdle : Place → Bool
  | .entry .idle | .idleStart => true
  | _ => false

/-- The thread at hand that `thread_create` has listed. -/
def listed : Place → Option Nat
  | .unblocking t _ | .createUnblock t => some t
  | _ => none

theorem beforeIdle_of_ofIdle {p : Place} (h : p.ofIdle = false) : p.beforeIdle = false := by
  cases p with
  | entry function => cases function <;> first | rfl | exact absurd h (by decide)
  | idleStart => exact absurd h (by decide)
  | _ => rfl

theorem beforeIdle_cases {p : Place} (h : p.beforeIdle = true) :
    p = .entry .idle ∨ p = .idleStart := by
  unfold beforeIdle at h
  split at h
  · exact .inl rfl
  · exact .inr rfl
  · exact absurd h nofun

end Place

namespace Kernel

variable {s s' : Kernel}

/-- The other threads stay where they are, and a new one is in front of `run`. -/
structure Moves (s s' : Kernel) : Prop where
  others : ∀ t, t ≠ s.current → t ≤ s.numThreads → s'.place t = s.place t
  threads : s'.numThreads = s.numThreads ∨
    s'.numThreads = s.numThreads + 1 ∧
      ∃ function, function ≠ ThreadFunc.idle ∧ s'.place (s.numThreads + 1) = .entry function

theorem Moves.of_place (hnum : s'.numThreads = s.numThreads)
    (hplace : ∀ t, t ≠ s.current → s'.place t = s.place t) : s.Moves s' :=
  ⟨fun t ht _ => hplace t ht, .inl hnum⟩

theorem call_moves {c : KernelCall} (hv : s.Valid) (hcall : s.call c = some s') :
    s.Moves s' := by
  cases c <;> simp only [Kernel.call, Option.ite_none_right_eq_some, Option.some.injEq] at hcall
  all_goals first | obtain rfl := hcall | obtain ⟨-, rfl⟩ := hcall
  case threadCreate null =>
    have hne : s.numThreads + 1 ≠ s.current := by
      have hle := hv.current.2
      omega
    refine ⟨fun t ht hle => ?_,
      .inr ⟨by simp [threadCreate], if null then .null else .code, ?_, ?_⟩⟩
    · have hnew : t ≠ s.numThreads + 1 := by omega
      simp [threadCreate, ht, hnew]
    · cases null <;> decide
    · simp [threadCreate, hne]
  all_goals apply Moves.of_place
  case threadUnblock.hnum t | threadUnblock.hplace t =>
    unfold threadUnblock
    dsimp only
    split <;> simp +contextual
  case threadSleep.hnum t ticks | threadSleep.hplace t ticks =>
    unfold threadSleep
    repeat' split
    all_goals simp +contextual
  case lockAccquire.hnum l | lockAccquire.hplace l =>
    unfold lockAccquire
    dsimp only
    split <;> simp +contextual
  case lockRelease.hnum l | lockRelease.hplace l =>
    unfold lockRelease
    dsimp only
    split <;> simp +contextual
  case semaDown.hnum n | semaDown.hplace n =>
    unfold semaDown semaDownLoop
    dsimp only
    split <;> simp +contextual
  all_goals simp +contextual [threadYield, semaInit, lockInit, runReturn]

theorem advance_moves {c : KernelCall} (hv : s.Valid) (hadvance : s.advance c = some s') :
    s.Moves s' := by
  cases hplace : s.place s.current
  all_goals simp only [Kernel.advance, hplace, Option.some.injEq] at hadvance
  case user => exact call_moves hv hadvance
  all_goals
    subst hadvance
    apply Moves.of_place
  case entry.hnum function | entry.hplace function =>
    cases function <;> simp +contextual [run]
  case initDown.hnum | initDown.hplace =>
    unfold semaDown semaDownLoop
    dsimp only
    split <;> simp +contextual
  case accquireDown.hnum l | accquireDown.hplace l =>
    unfold semaDown semaDownLoop
    dsimp only
    split <;> simp +contextual
  case waiting.hnum r level | waiting.hplace r level =>
    unfold semaDownLoop
    dsimp only
    split <;> simp +contextual
  case unblocking.hnum t created | unblocking.hplace t created =>
    cases created <;> simp +contextual [unblockReturn, unblockOff]
  case createUnblock.hnum new | createUnblock.hplace new =>
    unfold threadUnblock
    dsimp only
    split <;> simp +contextual
  case releaseUp.hnum l | releaseUp.hplace l =>
    unfold releaseUp
    dsimp only
    split <;> simp +contextual
  case idleUp.hnum | idleUp.hplace =>
    unfold idleUp
    dsimp only
    split <;> simp +contextual
  all_goals simp +contextual [runEnd, yieldReturn, createAppend, sleepOff, setHolder,
    clearHolder, idleStart]

@[simp] theorem threadTick_place : s.threadTick.place = s.place := by
  unfold threadTick
  dsimp only
  split
  · exact yieldOff_place _
  · rfl

theorem step_moves {a : Action} (hv : s.Valid) (hstep : s.step a = some s') : s.Moves s' := by
  apply step_cases hstep
  · intro _ _ _
    refine Moves.of_place ?_ fun _ _ => by rw [threadTick_place]
    unfold threadTick
    dsimp only
    split
    · exact yieldOff_numThreads _
    · rfl
  · exact fun _ _ => Moves.of_place rfl fun _ _ => rfl
  · exact fun _ _ _ _ _ hadvance => advance_moves hv hadvance
  · exact fun _ _ => Moves.of_place rfl fun _ _ => rfl

/-- A thread that runs on behind the end of `run` stops the kernel. -/
theorem step_dead {a : Action} (hdead : s.place s.current = .dead) (hstep : s.step a = some s')
    (hrun : s'.outcome = .running) : s'.place = s.place := by
  revert hrun
  apply step_cases (P := fun s' => s'.outcome = .running → s'.place = s.place) hstep
  · exact fun _ _ _ _ => threadTick_place
  · exact fun _ _ _ => rfl
  · intro c s' _ _ _ hadvance hrun
    simp only [Kernel.advance, hdead, Option.some.injEq] at hadvance
    subst hadvance
    cases hrun
  · exact fun _ _ _ => rfl

/-! ## What the running thread goes on with -/

/-- Where the running thread goes on after a step, and what it holds on to there. -/
structure Goes (s s' : Kernel) : Prop where
  initialised : ∀ r ∈ s.initialised, r ∈ s'.initialised
  sema : ∀ r, (s'.place s.current).sema = some r → r ∈ s.initialised
  ofIdle : (s'.place s.current).ofIdle = (s.place s.current).ofIdle
  idle : s'.idleThread = s.idleThread ∧
      (s'.place s.current).beforeIdle = (s.place s.current).beforeIdle ∨
    s'.idleThread = s.current ∧ s.place s.current = .idleStart ∧
      (s'.place s.current).beforeIdle = false
  dead : s'.place s.current = .dead → s.place s.current = .dead ∨ s.place s.current = .dying
  dying : s'.place s.current = .dying → s.place s.current = .dying ∨
    s'.status s.current = .dying ∧ s'.current = s.current
  listed : ∀ t, (s'.place s.current).listed = some t →
    t ∈ s.created ∨ (s.place s.current).listed = some t ∨
      s.place s.current = .createAppend t ∧ t ∈ s'.created
  appends : ∀ t, s'.place s.current = .createAppend t →
    s.place s.current = .createAppend t ∨ t = s.numThreads + 1 ∧ s'.numThreads = t

theorem Goes.of_place (hinit : s'.initialised = s.initialised) (hplace : s'.place = s.place)
    (hidle : s'.idleThread = s.idleThread)
    (hsema : ∀ r, (s.place s.current).sema = some r → r ∈ s.initialised) : s.Goes s' := by
  constructor
  · rw [hinit]
    exact fun _ h => h
  · rw [hplace]
    exact hsema
  · rw [hplace]
  · rw [hplace]
    exact .inl ⟨hidle, rfl⟩
  · rw [hplace]
    exact .inl
  · rw [hplace]
    exact .inl
  · rw [hplace]
    exact fun t h => .inr (.inl h)
  · rw [hplace]
    exact fun t h => .inl h

theorem call_goes {c : KernelCall} (hplace : s.place s.current = .user)
    (hcall : s.call c = some s') : s.Goes s' := by
  cases c <;> simp only [Kernel.call, Option.ite_none_right_eq_some, Option.some.injEq] at hcall
  all_goals first | obtain rfl := hcall | obtain ⟨hknown, rfl⟩ := hcall
  case threadUnblock t =>
    unfold threadUnblock
    dsimp only
    split
    case h_1 =>
      constructor
      all_goals simp [hplace, Place.sema, Place.ofIdle, Place.beforeIdle, Place.listed]
    case h_2 hcheck =>
      have hcreated : t ∈ s.created := by
        refine hknown.resolve_right fun hnot => ?_
        have hthread := isThread_iff.mpr (unblockCheck_eq_none.mp hcheck).1
        simp only [isThread, enter_numThreads] at hthread hnot
        rw [hthread] at hnot
        exact absurd hnot (by decide)
      constructor
      all_goals simp [hplace, Place.sema, Place.ofIdle, Place.beforeIdle, Place.listed, hcreated]
  case threadCreate null =>
    constructor
    all_goals simp [threadCreate, hplace, Place.sema, Place.ofIdle, Place.beforeIdle, Place.listed]
  case threadSleep t ticks =>
    unfold threadSleep
    repeat' split
    all_goals
      constructor
      all_goals simp [hplace, Place.sema, Place.ofIdle, Place.beforeIdle, Place.listed]
  case lockAccquire l =>
    unfold lockAccquire
    dsimp only
    split
    all_goals
      constructor
      all_goals simp [hplace, Place.sema, Place.ofIdle, Place.beforeIdle, Place.listed, hknown]
  case lockRelease l =>
    unfold lockRelease
    dsimp only
    split
    all_goals
      constructor
      all_goals simp [hplace, Place.sema, Place.ofIdle, Place.beforeIdle, Place.listed, hknown]
  case semaDown n =>
    unfold semaDown semaDownLoop
    dsimp only
    split
    all_goals
      constructor
      all_goals simp [hplace, Place.sema, Place.ofIdle, Place.beforeIdle, Place.listed, hknown,
        afterDown]
  all_goals
    constructor
    all_goals simp +contextual [hplace, Place.sema, Place.ofIdle, Place.beforeIdle, Place.listed,
      threadYield, semaInit, lockInit, runReturn]

theorem semaDownLoop_goes {r : SemaRef} {level : Bool} {u : Kernel}
    (hcurrent : u.current = s.current) (hinit : u.initialised = s.initialised)
    (hidle : u.idleThread = s.idleThread) (hr : r ∈ s.initialised)
    (hofIdle : (s.place s.current).ofIdle = false) : s.Goes (u.semaDownLoop r level) := by
  have hbefore : (s.place s.current).beforeIdle = false := Place.beforeIdle_of_ofIdle hofIdle
  unfold semaDownLoop
  dsimp only
  split
  all_goals
    constructor
    all_goals simp [hcurrent, hinit, hidle, Place.sema, Place.listed, hofIdle, hbefore]
    all_goals cases r <;> simp [afterDown, Place.ofIdle, Place.beforeIdle, hr]

theorem advance_goes {c : KernelCall} (hstarted : .started ∈ s.initialised)
    (hsema : ∀ r, (s.place s.current).sema = some r → r ∈ s.initialised)
    (hadvance : s.advance c = some s') : s.Goes s' := by
  cases hplace : s.place s.current
  all_goals
    simp only [Kernel.advance, hplace, Option.some.injEq] at hadvance
    rw [hplace] at hsema
  case user => exact call_goes hplace hadvance
  all_goals subst hadvance
  case entry function =>
    cases function
    all_goals
      constructor
      all_goals simp [run, hplace, Place.sema, Place.ofIdle, Place.beforeIdle, Place.listed]
  case initDown =>
    exact semaDownLoop_goes (u := (s.enter .semaDown).intDisable) rfl rfl rfl hstarted
      (by rw [hplace]; rfl)
  case waiting r level =>
    exact semaDownLoop_goes (u := s) rfl rfl rfl (hsema r rfl) (by rw [hplace]; rfl)
  case accquireDown l =>
    exact semaDownLoop_goes (u := (s.enter .semaDown).intDisable) rfl rfl rfl
      (hsema (.lock l) rfl) (by rw [hplace]; rfl)
  case clearHolder l =>
    have hl := hsema (.lock l) rfl
    constructor
    all_goals simp [clearHolder, hplace, Place.sema, Place.ofIdle, Place.beforeIdle, Place.listed,
      hl]
  case unblocking t created =>
    cases created
    all_goals
      constructor
      all_goals simp [unblockReturn, unblockOff, hplace, Place.sema, Place.ofIdle,
        Place.beforeIdle, Place.listed]
  case createUnblock new =>
    unfold threadUnblock
    dsimp only
    split
    all_goals
      constructor
      all_goals simp [hplace, Place.sema, Place.ofIdle, Place.beforeIdle, Place.listed]
  case releaseUp l =>
    have hl := hsema (.lock l) rfl
    unfold releaseUp
    dsimp only
    split
    all_goals
      constructor
      all_goals simp [hplace, Place.sema, Place.ofIdle, Place.beforeIdle, Place.listed, hl]
  case idleUp =>
    unfold idleUp
    dsimp only
    split
    all_goals
      constructor
      all_goals simp [hplace, Place.sema, Place.ofIdle, Place.beforeIdle, Place.listed]
  case idleStart =>
    constructor
    all_goals simp [idleStart, hplace, Place.sema, Place.ofIdle, Place.beforeIdle, Place.listed]
  all_goals
    constructor
    all_goals simp [runEnd, yieldReturn, createAppend, sleepOff, setHolder, hplace, Place.sema,
      Place.ofIdle, Place.beforeIdle, Place.listed]

theorem step_goes {a : Action} (hstarted : .started ∈ s.initialised)
    (hsema : ∀ r, (s.place s.current).sema = some r → r ∈ s.initialised)
    (hstep : s.step a = some s') : s.Goes s' := by
  apply step_cases hstep
  · intro _ _ _
    apply Goes.of_place
    · unfold threadTick
      dsimp only
      split
      · exact yieldOff_initialised _
      · rfl
    · exact threadTick_place
    · unfold threadTick
      dsimp only
      split
      · exact yieldOff_idleThread _
      · rfl
    · exact hsema
  · exact fun _ _ => .of_place rfl rfl rfl hsema
  · exact fun _ _ _ _ _ hadvance => advance_goes hstarted hsema hadvance
  · exact fun _ _ => .of_place rfl rfl rfl hsema

/-- A semaphore is set up before a thread uses it. -/
structure Prepared (s : Kernel) : Prop where
  started : .started ∈ s.initialised
  used : ∀ t, t ≠ 0 → t ≤ s.numThreads → ∀ r, (s.place t).sema = some r → r ∈ s.initialised

theorem Prepared.step {a : Action} (h : s.Prepared) (hv : s.Valid)
    (hstep : s.step a = some s') : s'.Prepared := by
  have hmoves := step_moves hv hstep
  have hgoes := step_goes h.started (h.used _ hv.current.1 hv.current.2) hstep
  refine ⟨hgoes.initialised _ h.started, fun t h0 hle r hr => ?_⟩
  by_cases hcur : t = s.current
  · subst hcur
    exact hgoes.initialised _ (hgoes.sema r hr)
  · rcases hmoves.threads with hnum | ⟨hnum, function, -, hentry⟩
    · rw [hmoves.others t hcur (by omega)] at hr
      exact hgoes.initialised _ (h.used t h0 (by omega) r hr)
    · by_cases hnew : t = s.numThreads + 1
      · rw [hnew, hentry] at hr
        exact absurd hr nofun
      · rw [hmoves.others t hcur (by omega)] at hr
        exact hgoes.initialised _ (h.used t h0 (by omega) r hr)

theorem Start.prepared (h : s.Start) : s.Prepared := by
  refine ⟨by simp [h.initialised], fun t h0 hle r hr => ?_⟩
  rw [h.numThreads] at hle
  obtain rfl | rfl : t = 1 ∨ t = 2 := by omega
  · rw [h.place₁] at hr
    exact absurd hr nofun
  · rw [h.place₂] at hr
    exact absurd hr nofun

/-- The idle thread is thread 2, and `idle_thread` is null or leads to it. -/
structure IdleKept (s : Kernel) : Prop where
  two : 2 ≤ s.numThreads
  places : ∀ t, t ≠ 0 → t ≤ s.numThreads → ((s.place t).ofIdle = true ↔ t = 2)
  thread : s.idleThread = if (s.place 2).beforeIdle then 0 else 2

theorem IdleKept.step {a : Action} (h : s.IdleKept) (hv : s.Valid) (hprep : s.Prepared)
    (hstep : s.step a = some s') : s'.IdleKept := by
  have hmoves := step_moves hv hstep
  have hgoes := step_goes hprep.started (hprep.used _ hv.current.1 hv.current.2) hstep
  have hcurrent := h.places _ hv.current.1 hv.current.2
  refine ⟨?_, fun t h0 hle => ?_, ?_⟩
  · have htwo := h.two
    rcases hmoves.threads with hnum | ⟨hnum, -⟩ <;> omega
  · by_cases hcur : t = s.current
    · subst hcur
      rw [hgoes.ofIdle]
      exact hcurrent
    · rcases hmoves.threads with hnum | ⟨hnum, function, hne, hentry⟩
      · rw [hmoves.others t hcur (by omega)]
        exact h.places t h0 (by omega)
      · by_cases hnew : t = s.numThreads + 1
        · have htwo := h.two
          rw [hnew, hentry]
          constructor
          · cases function
            case idle => exact absurd rfl hne
            all_goals exact nofun
          · omega
        · rw [hmoves.others t hcur (by omega)]
          exact h.places t h0 (by omega)
  · rcases hgoes.idle with ⟨hidle, hbefore⟩ | ⟨hidle, hstart, hbefore⟩
    · rw [hidle, h.thread]
      by_cases hcur : 2 = s.current
      · rw [← hcur] at hbefore
        rw [hbefore]
      · rw [hmoves.others 2 hcur h.two]
    · have hcur : s.current = 2 := hcurrent.mp (by rw [hstart]; rfl)
      rw [hcur] at hbefore
      rw [hidle, hcur, hbefore]
      rfl

theorem Start.idleKept (h : s.Start) : s.IdleKept := by
  refine ⟨Nat.le_of_eq h.numThreads.symm, fun t h0 hle => ?_, ?_⟩
  · rw [h.numThreads] at hle
    obtain rfl | rfl : t = 1 ∨ t = 2 := by omega
    · rw [h.place₁]
      decide
    · rw [h.place₂]
      decide
  · rw [h.idleThread, h.place₂]
    rfl

/-- Until the idle thread has set `idle_thread`, the kernel thread waits for it in
`thread_init`. -/
def Booting (s : Kernel) : Prop := s.idleThread = 0 →
  s.numThreads = 2 ∧ (s.semas .started).value = 0 ∧
    (s.place 1 = .initDown ∨ ∃ level, s.place 1 = .waiting .started level)

theorem Booting.of_place (h : s.Booting) (hidle : s'.idleThread = s.idleThread)
    (hnum : s'.numThreads = s.numThreads) (hsemas : s'.semas = s.semas)
    (hplace : s'.place 1 = s.place 1) : s'.Booting := by
  unfold Booting at h ⊢
  rw [hidle, hnum, hsemas, hplace]
  exact h

/-- The kernel thread looks at `init_started` and waits. -/
theorem booting_semaDownLoop {level : Bool} {u : Kernel} (hcurrent : u.current = 1)
    (hnum : u.numThreads = 2) (hvalue : (u.semas .started).value = 0) :
    (u.semaDownLoop .started level).Booting := by
  intro _
  unfold semaDownLoop
  dsimp only
  rw [if_pos hvalue]
  exact ⟨by simp [hnum], by simp [hvalue], .inr ⟨level, by simp [hcurrent]⟩⟩

theorem Booting.advance {c : KernelCall} (h : s.Booting) (hv : s.Valid) (hkept : s.IdleKept)
    (hidle : s.idleThread = 0) (hadvance : s.advance c = some s') : s'.Booting := by
  obtain ⟨hnum, hvalue, hplace₁⟩ := h hidle
  have hbefore : (s.place 2).beforeIdle = true := by
    by_contra hnot
    have htwo := hkept.thread
    rw [if_neg hnot, hidle] at htwo
    exact absurd htwo (by decide)
  have hcurrent : s.current = 1 ∨ s.current = 2 := by
    have hthread := hv.current
    omega
  rcases hcurrent with hcur | hcur
  · rcases hplace₁ with hplace | ⟨level, hplace⟩ <;>
      simp only [Kernel.advance, hcur, hplace, Option.some.injEq] at hadvance <;> subst hadvance
    · exact booting_semaDownLoop (u := (s.enter .semaDown).intDisable) hcur hnum hvalue
    · exact booting_semaDownLoop hcur hnum hvalue
  · rcases Place.beforeIdle_cases hbefore with hplace | hplace <;>
      simp only [Kernel.advance, hcur, hplace, Option.some.injEq] at hadvance <;> subst hadvance
    · exact h.of_place rfl rfl rfl (by simp [run, hcur])
    · intro h0
      exact absurd (hcur.symm.trans h0) (by decide)

theorem Booting.step {a : Action} (h : s.Booting) (hv : s.Valid) (hprep : s.Prepared)
    (hkept : s.IdleKept) (hstep : s.step a = some s') : s'.Booting := by
  by_cases hidle : s.idleThread = 0
  · apply step_cases hstep
    · intro _ _ _
      unfold threadTick
      dsimp only
      split
      · exact h.of_place (yieldOff_idleThread _) (yieldOff_numThreads _) (yieldOff_semas _)
          (by rw [yieldOff_place]; rfl)
      · exact h.of_place rfl rfl rfl rfl
    · exact fun _ _ => h.of_place rfl rfl rfl rfl
    · exact fun _ _ _ _ _ hadvance => h.advance hv hkept hidle hadvance
    · exact fun _ _ => h.of_place rfl rfl rfl rfl
  · intro hidle'
    have hgoes := step_goes hprep.started (hprep.used _ hv.current.1 hv.current.2) hstep
    rcases hgoes.idle with ⟨hsame, -⟩ | ⟨hcurrent, -⟩
    · exact absurd (hsame.symm.trans hidle') hidle
    · exact absurd (hcurrent.symm.trans hidle') hv.current.1

theorem Start.booting (h : s.Start) : s.Booting := fun _ =>
  ⟨h.numThreads, by simp [h.started], .inl h.place₁⟩

/-- The kernel is up before any thread is put to sleep. -/
theorem Booting.of_sleeping (h : s.Booting) (hv : s.Valid) (hkept : s.IdleKept) {t : Nat}
    (hplace : s.place s.current = .sleeping t) : s.idleThread ≠ 0 := by
  intro hidle
  obtain ⟨hnum, -, hplace₁⟩ := h hidle
  have hthread := hv.current
  by_cases hcur : s.current = 1
  · rw [hcur] at hplace
    rcases hplace₁ with hplace₁ | ⟨level, hplace₁⟩
    · exact absurd (hplace₁.symm.trans hplace) nofun
    · exact absurd (hplace₁.symm.trans hplace) nofun
  · have hofIdle := (hkept.places _ hthread.1 hthread.2).mpr (by omega)
    rw [hplace] at hofIdle
    exact absurd hofIdle nofun

end Kernel

end NickOS3.Thread
