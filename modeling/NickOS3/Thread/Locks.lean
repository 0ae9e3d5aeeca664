import NickOS3.Thread.Places
import NickOS3.Thread.SchedulerInvariant

/-!
# Lock mutual exclusion

The unit of a lock's semaphore is either free or with one thread: in front of setting the
holder, between `lock_accquire` and `lock_release`, or in front of giving the unit back.
The holder is written outside of the semaphore's section, and is that thread or null.
-/

namespace NickOS3.Thread

open Foundation

namespace Place

/-- The lock that a thread at this place has come for. -/
def lock : Place → Option Nat
  | .waiting (.lock l) _ | .accquireDown l | .setHolder l | .clearHolder l | .releaseUp l =>
      some l
  | _ => none

/-- The places where a thread has the unit of the lock on its way in or out. -/
def critical (l : Nat) : Place → Bool
  | .setHolder k | .clearHolder k | .releaseUp k => decide (k = l)
  | _ => false

/-- The places where a thread has the unit of the lock and is not its holder. -/
def between (l : Nat) : Place → Bool
  | .setHolder k | .releaseUp k => decide (k = l)
  | _ => false

theorem lock_of_critical {l : Nat} {p : Place} (h : p.critical l = true) : p.lock = some l := by
  cases p <;> simp_all [critical, lock]

theorem between_of_not_critical {l : Nat} {p : Place} (h : p.critical l = false) :
    p.between l = false ∧ p ≠ .setHolder l := by
  cases p <;> simp_all [critical, between]

end Place

namespace Kernel

variable (s : Kernel) (l : Nat)

/-- The holder when the thread `o` has the unit. -/
def holderOf : Option Nat → Nat
  | none => 0
  | some t => if (s.place t).between l then 0 else t

/-- Who is between `lock_accquire` and `lock_release` when the thread `o` has the unit. -/
def insideOf : Option Nat → List Nat
  | none => []
  | some t => if s.place t = .setHolder l then [] else [t]

/-- The thread `o` has the unit of the lock, or nobody has. -/
structure Taken (o : Option Nat) : Prop where
  value : (s.semas (.lock l)).value = if o = none then 1 else 0
  critical : ∀ t, t ≠ 0 → t ≤ s.numThreads → (s.place t).critical l = true → o = some t
  thread : ∀ t, o = some t → t ≠ 0 ∧ t ≤ s.numThreads
  holder : s.holder l = s.holderOf l o
  inside : s.inside l = s.insideOf l o

/-- What holds of a lock along a run. -/
structure LockInvariant : Prop where
  known : ∀ t, t ≠ 0 → t ≤ s.numThreads → (s.place t).lock = some l → .lock l ∈ s.initialised
  taken : .lock l ∈ s.initialised → ∃ o, s.Taken l o

/-- A step that leaves the lock alone. -/
structure LeavesLock (s' : Kernel) : Prop where
  value : (s'.semas (.lock l)).value = (s.semas (.lock l)).value
  holder : s'.holder l = s.holder l
  inside : s'.inside l = s.inside l
  initialised : .lock l ∈ s'.initialised ↔ .lock l ∈ s.initialised
  place : s'.place s.current = s.place s.current ∨
    (s.place s.current).critical l = false ∧ (s'.place s.current).critical l = false
  known : (s'.place s.current).lock = some l → .lock l ∈ s.initialised

variable {s l} {s' : Kernel}

theorem LockInvariant.leaves (h : s.LockInvariant l) (hv : s.Valid) (hmoves : s.Moves s')
    (hleaves : s.LeavesLock l s') : s'.LockInvariant l := by
  have hold : ∀ t, t ≠ 0 → t ≤ s'.numThreads →
      s'.place t = s.place t ∧ t ≤ s.numThreads ∨
      (s'.place t).critical l = false ∧
        (t ≤ s.numThreads → (s.place t).critical l = false) ∧
        ((s'.place t).lock = some l → .lock l ∈ s.initialised) := by
    intro t h0 hle
    by_cases hcur : t = s.current
    · subst hcur
      rcases hleaves.place with hsame | ⟨hbefore, hafter⟩
      · exact .inl ⟨hsame, hv.current.2⟩
      · exact .inr ⟨hafter, fun _ => hbefore, hleaves.known⟩
    · rcases hmoves.threads with hnum | ⟨hnum, function, -, hentry⟩
      · exact .inl ⟨hmoves.others t hcur (by omega), by omega⟩
      · by_cases hnew : t = s.numThreads + 1
        · subst hnew
          rw [hentry]
          exact .inr ⟨rfl, fun hle => absurd hle (by omega), nofun⟩
        · exact .inl ⟨hmoves.others t hcur (by omega), by omega⟩
  constructor
  · intro t h0 hle hlock
    rw [hleaves.initialised]
    rcases hold t h0 hle with ⟨hsame, hle⟩ | ⟨-, -, hknown⟩
    · exact h.known t h0 hle (hsame ▸ hlock)
    · exact hknown hlock
  · intro hinit
    obtain ⟨o, ho⟩ := h.taken (hleaves.initialised.mp hinit)
    have hnum : s.numThreads ≤ s'.numThreads := by
      rcases hmoves.threads with hnum | ⟨hnum, -⟩ <;> omega
    refine ⟨o, ?_, ?_, ?_, ?_, ?_⟩
    · rw [hleaves.value, ho.value]
    · intro t h0 hle hcritical
      rcases hold t h0 hle with ⟨hsame, hle⟩ | ⟨hnot, -⟩
      · exact ho.critical t h0 hle (hsame ▸ hcritical)
      · rw [hnot] at hcritical
        exact absurd hcritical nofun
    · intro t ht
      exact ⟨(ho.thread t ht).1, Nat.le_trans (ho.thread t ht).2 hnum⟩
    · rw [hleaves.holder, ho.holder]
      cases o with
      | none => rfl
      | some t =>
          obtain ⟨h0, hle⟩ := ho.thread t rfl
          rcases hold t h0 (Nat.le_trans hle hnum) with ⟨hsame, -⟩ | ⟨hafter, hbefore, -⟩
          · simp only [holderOf, hsame]
          · simp only [holderOf, (Place.between_of_not_critical hafter).1,
              (Place.between_of_not_critical (hbefore hle)).1]
    · rw [hleaves.inside, ho.inside]
      cases o with
      | none => rfl
      | some t =>
          obtain ⟨h0, hle⟩ := ho.thread t rfl
          rcases hold t h0 (Nat.le_trans hle hnum) with ⟨hsame, -⟩ | ⟨hafter, hbefore, -⟩
          · simp only [insideOf, hsame]
          · simp only [insideOf, if_neg (Place.between_of_not_critical hafter).2,
              if_neg (Place.between_of_not_critical (hbefore hle)).2]

/-- The unit of the lock goes to the running thread, stays with it or comes back from it. -/
theorem Taken.own {o p : Option Nat} (h : s.Taken l o) (hv : s.Valid) (hmoves : s.Moves s')
    (howner : ∀ t, o = some t → t = s.current) (howner' : ∀ t, p = some t → t = s.current)
    (hcritical : (s'.place s.current).critical l = true → p = some s.current)
    (hvalue : (s'.semas (.lock l)).value = if p = none then 1 else 0)
    (hholder : s'.holder l =
      if p = none ∨ (s'.place s.current).between l = true then 0 else s.current)
    (hinside : s'.inside l =
      if p = none ∨ s'.place s.current = .setHolder l then [] else [s.current])
    (hinit : .lock l ∈ s'.initialised) : s'.LockInvariant l := by
  have hnum : s.numThreads ≤ s'.numThreads := by
    rcases hmoves.threads with hnum | ⟨hnum, -⟩ <;> omega
  refine ⟨fun _ _ _ _ => hinit, fun _ => ⟨p, hvalue, ?_, ?_, ?_, ?_⟩⟩
  · intro t h0 hle hcrit
    by_cases hcur : t = s.current
    · subst hcur
      exact hcritical hcrit
    · exfalso
      have hold : t ≤ s.numThreads → False := by
        intro hle
        rw [hmoves.others t hcur hle] at hcrit
        exact hcur (howner t (h.critical t h0 hle hcrit))
      rcases hmoves.threads with hnum | ⟨hnum, function, -, hentry⟩
      · exact hold (by omega)
      · by_cases hnew : t = s.numThreads + 1
        · rw [hnew, hentry] at hcrit
          exact absurd hcrit nofun
        · exact hold (by omega)
  · intro t ht
    rw [howner' t ht]
    exact ⟨hv.current.1, Nat.le_trans hv.current.2 hnum⟩
  · rw [hholder]
    cases p with
    | none => simp [holderOf]
    | some t => simp [holderOf, howner' t rfl]
  · rw [hinside]
    cases p with
    | none => simp [insideOf]
    | some t => simp [insideOf, howner' t rfl]

theorem Taken.owner_of_critical {o : Option Nat} (h : s.Taken l o) (hv : s.Valid)
    (hcritical : (s.place s.current).critical l = true) : o = some s.current :=
  h.critical _ hv.current.1 hv.current.2 hcritical

/-- The loop of `sema_down` on the semaphore of the lock. -/
theorem LockInvariant.semaDownLoop {u : Kernel} {level : Bool} (h : s.LockInvariant l)
    (hv : s.Valid) (hcurrent : u.current = s.current) (hsemas : u.semas = s.semas)
    (hholder : u.holder = s.holder) (hinside : u.inside = s.inside)
    (hinitialised : u.initialised = s.initialised)
    (hplace : (s.place s.current).critical l = false)
    (hmoves : s.Moves (u.semaDownLoop (.lock l) level)) (hinit : .lock l ∈ s.initialised) :
    (u.semaDownLoop (.lock l) level).LockInvariant l := by
  obtain ⟨o, ho⟩ := h.taken hinit
  unfold Kernel.semaDownLoop at hmoves ⊢
  dsimp only at hmoves ⊢
  split at hmoves
  case isTrue hvalue =>
    rw [if_pos hvalue]
    apply h.leaves hv hmoves
    constructor
    · simp [hsemas]
    · simp [hholder]
    · simp [hinside]
    · simp [hinitialised]
    · right
      exact ⟨hplace, by simp [hcurrent, Place.critical]⟩
    · exact fun _ => hinit
  case isFalse hvalue =>
    rw [if_neg hvalue]
    have hone : o = none ∧ (s.semas (.lock l)).value = 1 := by
      rw [hsemas, ho.value] at hvalue
      by_cases hnone : o = none
      · exact ⟨hnone, by rw [ho.value, if_pos hnone]⟩
      · exact absurd (if_neg hnone) hvalue
    obtain ⟨rfl, hone⟩ := hone
    apply ho.own (p := some s.current) hv hmoves
    · nofun
    · exact fun t ht => (Option.some.inj ht).symm
    · exact fun _ => rfl
    · simp [hsemas, hone]
    · simp [hcurrent, hholder, ho.holder, holderOf, afterDown, Place.between]
    · simp [hcurrent, hinside, ho.inside, insideOf, afterDown]
    · simpa [hinitialised] using hinit

theorem LockInvariant.semaDown (h : s.LockInvariant l) (hv : s.Valid)
    (hplace : (s.place s.current).critical l = false)
    (hmoves : s.Moves (s.semaDown (.lock l))) (hinit : .lock l ∈ s.initialised) :
    (s.semaDown (.lock l)).LockInvariant l :=
  LockInvariant.semaDownLoop (u := (s.enter .semaDown).intDisable) h hv rfl rfl rfl rfl rfl
    hplace hmoves hinit

/-- `sema_down` on another semaphore. -/
theorem LeavesLock.semaDownLoop {u : Kernel} {r : SemaRef} {level : Bool}
    (hcurrent : u.current = s.current) (hsemas : u.semas = s.semas)
    (hholder : u.holder = s.holder) (hinside : u.inside = s.inside)
    (hinitialised : u.initialised = s.initialised)
    (hplace : (s.place s.current).critical l = false) (hr : .lock l ≠ r) :
    s.LeavesLock l (u.semaDownLoop r level) := by
  have hother : ∀ k, r = .lock k → k ≠ l := by
    rintro k rfl rfl
    exact hr rfl
  unfold Kernel.semaDownLoop
  dsimp only
  split
  · constructor
    · simp [hsemas, hr]
    · simp [hholder]
    · simp [hinside]
    · simp [hinitialised]
    · right
      exact ⟨hplace, by simp [hcurrent, Place.critical]⟩
    · cases r <;> simp [hcurrent, Place.lock] at hother ⊢
      exact fun hk => absurd hk hother
  · constructor
    · simp [hsemas, hr]
    · simp [hholder]
    · simp [hinside]
    · simp [hinitialised]
    · right
      refine ⟨hplace, ?_⟩
      cases r <;> simp [hcurrent, afterDown, Place.critical] at hother ⊢
      exact hother
    · cases r <;> simp [hcurrent, afterDown, Place.lock] at hother ⊢
      exact fun hk => absurd hk hother

theorem semaUp_semas_of_ne {r r' : SemaRef} (hne : r' ≠ r) :
    (s.semaUp r).semas r' = s.semas r' := by
  unfold Kernel.semaUp wakeWaiter
  dsimp only
  split
  · split <;> simp [hne]
  · split
    · simp [hne]
    · split <;> simp [hne, unblockOff]

/-! ## The steps -/

/-- Only the running thread knows that it has taken the lock. -/
theorem Taken.owner_of_holder {o : Option Nat} (h : s.Taken l o) (hv : s.Valid)
    (hholder : s.holder l = s.current) : o = some s.current ∧
      (s.place s.current).between l = false := by
  have hzero := hv.current.1
  cases o with
  | none => exact absurd (hholder.symm.trans h.holder) hzero
  | some t =>
      have howner := hholder.symm.trans h.holder
      unfold holderOf at howner
      dsimp only at howner
      split at howner
      case isTrue => exact absurd howner hzero
      case isFalse hbetween =>
        rw [← howner] at hbetween
        exact ⟨by rw [howner], by simpa using hbetween⟩

theorem LockInvariant.lockRelease (h : s.LockInvariant l) (hv : s.Valid)
    (hplace : s.place s.current = .user) (hmoves : s.Moves (s.lockRelease l))
    (hinit : .lock l ∈ s.initialised) : (s.lockRelease l).LockInvariant l := by
  obtain ⟨o, ho⟩ := h.taken hinit
  unfold Kernel.lockRelease at hmoves ⊢
  dsimp only at hmoves ⊢
  split at hmoves
  case isTrue hne =>
    rw [if_pos hne]
    apply h.leaves hv hmoves
    constructor
    · rfl
    · rfl
    · rfl
    · rfl
    · exact .inl rfl
    · exact fun _ => hinit
  case isFalse hholder =>
    have hholder : s.holder l = s.current := by simpa using hholder
    rw [if_neg (by simpa using hholder)]
    obtain ⟨rfl, -⟩ := ho.owner_of_holder hv hholder
    apply ho.own (p := some s.current) hv hmoves
    · exact fun t ht => (Option.some.inj ht).symm
    · exact fun t ht => (Option.some.inj ht).symm
    · exact fun _ => rfl
    · simpa using ho.value
    · simpa [Place.between] using hholder
    · simp [ho.inside, insideOf, hplace]
    · simpa using hinit

theorem LockInvariant.setHolder (h : s.LockInvariant l) (hv : s.Valid)
    (hplace : s.place s.current = .setHolder l) (hmoves : s.Moves (s.setHolder l)) :
    (s.setHolder l).LockInvariant l := by
  have hinit := h.known _ hv.current.1 hv.current.2 (by rw [hplace]; rfl)
  obtain ⟨o, ho⟩ := h.taken hinit
  obtain rfl := ho.owner_of_critical hv (by simp [hplace, Place.critical])
  apply ho.own (p := some s.current) hv hmoves
  · exact fun t ht => (Option.some.inj ht).symm
  · exact fun t ht => (Option.some.inj ht).symm
  · exact fun _ => rfl
  · simpa [Kernel.setHolder] using ho.value
  · simp [Kernel.setHolder, Place.between]
  · simp [Kernel.setHolder, ho.inside, insideOf, hplace]
  · simpa [Kernel.setHolder] using hinit

theorem LockInvariant.clearHolder (h : s.LockInvariant l) (hv : s.Valid)
    (hplace : s.place s.current = .clearHolder l) (hmoves : s.Moves (s.clearHolder l)) :
    (s.clearHolder l).LockInvariant l := by
  have hinit := h.known _ hv.current.1 hv.current.2 (by rw [hplace]; rfl)
  obtain ⟨o, ho⟩ := h.taken hinit
  obtain rfl := ho.owner_of_critical hv (by simp [hplace, Place.critical])
  apply ho.own (p := some s.current) hv hmoves
  · exact fun t ht => (Option.some.inj ht).symm
  · exact fun t ht => (Option.some.inj ht).symm
  · exact fun _ => rfl
  · simpa [Kernel.clearHolder] using ho.value
  · simp [Kernel.clearHolder, Place.between]
  · simp [Kernel.clearHolder, ho.inside, insideOf, hplace]
  · simpa [Kernel.clearHolder] using hinit

/-- `sema_up` raises the value, or panics and leaves it. -/
theorem semaUp_value (r : SemaRef) (hrun : s.outcome = .running) :
    (s.semaUp r).outcome = .running ∧
        ((s.semaUp r).semas r).value = u32 ((s.semas r).value + 1) ∨
      (s.semaUp r).outcome ≠ .running ∧
        ((s.semaUp r).semas r).value = (s.semas r).value := by
  cases hwaiters : (s.semas r).waiters with
  | nil =>
      rw [semaUp_empty hwaiters hrun]
      exact .inl ⟨hrun, by simp⟩
  | cons t rest =>
      cases hcheck : s.unblockCheck t with
      | none =>
          rw [semaUp_wake hwaiters hcheck hrun]
          exact .inl ⟨hrun, by simp⟩
      | some p =>
          rw [semaUp_stop hwaiters hcheck]
          exact .inr ⟨nofun, by simp⟩

theorem LockInvariant.releaseUp (h : s.LockInvariant l) (hv : s.Valid)
    (hrun : s.outcome = .running) (hplace : s.place s.current = .releaseUp l)
    (hmoves : s.Moves (s.releaseUp l)) : (s.releaseUp l).LockInvariant l := by
  have hinit := h.known _ hv.current.1 hv.current.2 (by rw [hplace]; rfl)
  obtain ⟨o, ho⟩ := h.taken hinit
  obtain rfl := ho.owner_of_critical hv (by simp [hplace, Place.critical])
  unfold Kernel.releaseUp at hmoves ⊢
  dsimp only at hmoves ⊢
  rcases semaUp_value (.lock l) hrun with ⟨hup, hvalue⟩ | ⟨hstop, hvalue⟩
  · rw [if_neg (by simpa using hup)] at hmoves ⊢
    apply ho.own (p := none) hv hmoves
    · exact fun t ht => (Option.some.inj ht).symm
    · nofun
    · intro hcrit
      simp [Place.critical] at hcrit
    · simp [hvalue, ho.value, u32]
    · simp [ho.holder, holderOf, hplace, Place.between]
    · simp [ho.inside, insideOf, hplace]
    · simpa using hinit
  · rw [if_pos hstop] at hmoves ⊢
    apply h.leaves hv hmoves
    constructor
    · exact hvalue
    · simp
    · simp
    · simp
    · simp
    · exact fun _ => hinit

theorem LockInvariant.lockInit (h : s.LockInvariant l)
    (hfresh : .lock l ∉ s.initialised) : (s.lockInit l).LockInvariant l := by
  have hplace : ∀ t, (s.lockInit l).place t = s.place t := by
    simp [Kernel.lockInit, semaInit]
  have hnum : (s.lockInit l).numThreads = s.numThreads := by simp [Kernel.lockInit, semaInit]
  refine ⟨fun t h0 hle hlock => ?_, fun _ => ⟨none, ?_, ?_, ?_, ?_, ?_⟩⟩
  · simp [Kernel.lockInit, semaInit]
  · simp [Kernel.lockInit, semaInit]
  · intro t h0 hle hcritical
    rw [hnum] at hle
    rw [hplace] at hcritical
    exact absurd (h.known t h0 hle (Place.lock_of_critical hcritical)) hfresh
  · intro t ht
    exact absurd ht (by simp)
  · simp [Kernel.lockInit, semaInit, holderOf]
  · simp [Kernel.lockInit, semaInit, insideOf]

theorem LockInvariant.call {c : KernelCall} (h : s.LockInvariant l) (hv : s.Valid)
    (hplace : s.place s.current = .user) (hcall : s.call c = some s') :
    s'.LockInvariant l := by
  have hmoves := call_moves hv hcall
  have hcritical : (s.place s.current).critical l = false := by rw [hplace]; rfl
  cases c <;> simp only [Kernel.call, Option.ite_none_right_eq_some, Option.some.injEq] at hcall
  all_goals first | obtain rfl := hcall | obtain ⟨hknown, rfl⟩ := hcall
  case semaDown n =>
    exact h.leaves hv hmoves
      (LeavesLock.semaDownLoop (u := (s.enter .semaDown).intDisable) rfl rfl rfl rfl rfl
        hcritical (by simp))
  case semaUp n =>
    apply h.leaves hv hmoves
    constructor
    · rw [semaUp_semas_of_ne (by simp)]
    · simp
    · simp
    · simp
    · simp
    · simp [hplace, Place.lock]
  case lockInit k =>
    by_cases hk : k = l
    · subst hk
      exact h.lockInit hknown
    · apply h.leaves hv hmoves
      constructor
      all_goals simp [Kernel.lockInit, semaInit, Ne.symm hk, hplace, Place.lock]
  case lockAccquire k =>
    apply h.leaves hv hmoves
    unfold Kernel.lockAccquire
    dsimp only
    split
    · constructor
      all_goals simp [hplace, Place.lock]
    · constructor
      all_goals simp [hplace, Place.critical, Place.lock]
      rintro rfl
      exact hknown
  case lockRelease k =>
    by_cases hk : k = l
    · subst hk
      exact h.lockRelease hv hplace hmoves hknown
    · apply h.leaves hv hmoves
      unfold Kernel.lockRelease
      dsimp only
      split
      · constructor
        all_goals simp [hplace, Place.lock]
      · constructor
        all_goals simp [hplace, Place.critical, Place.lock, hk]
  all_goals apply h.leaves hv hmoves
  case threadUnblock t =>
    unfold Kernel.threadUnblock
    dsimp only
    split
    all_goals
      constructor
      all_goals simp [hplace, Place.critical, Place.lock]
  case threadCreate null =>
    constructor
    all_goals simp [Kernel.threadCreate, hplace, Place.critical, Place.lock]
  case threadSleep t ticks =>
    unfold Kernel.threadSleep
    repeat' split
    all_goals
      constructor
      all_goals simp [hplace, Place.critical, Place.lock]
  all_goals
    constructor
    all_goals simp [hplace, Place.critical, Place.lock, threadYield, semaInit, runReturn]

theorem LockInvariant.advance {c : KernelCall} (h : s.LockInvariant l) (hv : s.Valid)
    (hrun : s.outcome = .running) (hadvance : s.advance c = some s') : s'.LockInvariant l := by
  have hmoves := advance_moves hv hadvance
  have hknown := h.known _ hv.current.1 hv.current.2
  cases hplace : s.place s.current
  all_goals
    simp only [Kernel.advance, hplace, Option.some.injEq] at hadvance
    rw [hplace] at hknown
  case user => exact h.call hv hplace hadvance
  all_goals subst hadvance
  case initDown =>
    exact h.leaves hv hmoves
      (LeavesLock.semaDownLoop (u := (s.enter .semaDown).intDisable) rfl rfl rfl rfl rfl
        (by rw [hplace]; rfl) (by simp))
  case waiting r level =>
    by_cases hr : .lock l = r
    · subst hr
      exact LockInvariant.semaDownLoop (u := s) h hv rfl rfl rfl rfl rfl
        (by rw [hplace]; rfl) hmoves (hknown rfl)
    · exact h.leaves hv hmoves
        (LeavesLock.semaDownLoop (u := s) rfl rfl rfl rfl rfl (by rw [hplace]; rfl) hr)
  case accquireDown k =>
    by_cases hk : l = k
    · subst hk
      exact h.semaDown hv (by rw [hplace]; rfl) hmoves (hknown rfl)
    · exact h.leaves hv hmoves
        (LeavesLock.semaDownLoop (u := (s.enter .semaDown).intDisable) rfl rfl rfl rfl rfl
          (by rw [hplace]; rfl) (by simpa using hk))
  case setHolder k =>
    by_cases hk : k = l
    · subst hk
      exact h.setHolder hv hplace hmoves
    · apply h.leaves hv hmoves
      constructor
      all_goals simp [Kernel.setHolder, Ne.symm hk, hplace, Place.critical, Place.lock, hk]
  case clearHolder k =>
    by_cases hk : k = l
    · subst hk
      exact h.clearHolder hv hplace hmoves
    · apply h.leaves hv hmoves
      constructor
      all_goals simp [Kernel.clearHolder, Ne.symm hk, hplace, Place.critical, Place.lock, hk]
  case releaseUp k =>
    by_cases hk : k = l
    · subst hk
      exact h.releaseUp hv hrun hplace hmoves
    · have hsemas : ((s.semaUp (.lock k)).semas (.lock l)) = s.semas (.lock l) :=
        semaUp_semas_of_ne (by simpa using Ne.symm hk)
      apply h.leaves hv hmoves
      unfold Kernel.releaseUp
      dsimp only
      split
      all_goals
        constructor
        all_goals simp [hsemas, Ne.symm hk, hplace, Place.critical, Place.lock, hk]
  case idleUp =>
    have hsemas : ((s.semaUp .started).semas (.lock l)) = s.semas (.lock l) :=
      semaUp_semas_of_ne (by simp)
    apply h.leaves hv hmoves
    unfold Kernel.idleUp
    dsimp only
    split
    all_goals
      constructor
      all_goals simp [hsemas, hplace, Place.critical, Place.lock]
  all_goals apply h.leaves hv hmoves
  case entry function =>
    cases function
    all_goals
      constructor
      all_goals simp [run, hplace, Place.critical, Place.lock]
  case unblocking t created =>
    cases created
    all_goals
      constructor
      all_goals simp [unblockReturn, unblockOff, hplace, Place.critical, Place.lock]
  case createUnblock new =>
    unfold Kernel.threadUnblock
    dsimp only
    split
    all_goals
      constructor
      all_goals simp [hplace, Place.critical, Place.lock]
  all_goals
    constructor
    all_goals simp [runEnd, yieldReturn, createAppend, sleepOff, idleStart, hplace,
      Place.critical, Place.lock]

theorem LockInvariant.step {a : Action} (h : s.LockInvariant l) (hv : s.Valid)
    (hstep : s.step a = some s') : s'.LockInvariant l := by
  have hmoves := step_moves hv hstep
  have hquiet : ∀ u : Kernel, s.Moves u → u.semas = s.semas → u.holder = s.holder →
      u.inside = s.inside → u.initialised = s.initialised → u.place = s.place →
      u.LockInvariant l := by
    intro u hmoves hsemas hholder hinside hinit hplace
    apply h.leaves hv hmoves
    constructor
    · rw [hsemas]
    · rw [hholder]
    · rw [hinside]
    · rw [hinit]
    · rw [hplace]
      exact .inl rfl
    · rw [hplace]
      exact h.known _ hv.current.1 hv.current.2
  revert hmoves
  apply step_cases hstep
  · intro _ _ _ hmoves
    apply hquiet _ hmoves
    all_goals
      unfold threadTick
      dsimp only
      split
    all_goals first | exact yieldOff_semas _ | exact yieldOff_holder _ | exact yieldOff_inside _ |
      exact yieldOff_initialised _ | exact yieldOff_place _ | rfl
  · exact fun _ _ hmoves => hquiet _ hmoves rfl rfl rfl rfl rfl
  · exact fun _ _ _ hrun _ hadvance _ => h.advance hv hrun hadvance
  · exact fun _ _ hmoves => hquiet _ hmoves rfl rfl rfl rfl rfl

theorem Start.lockInvariant (h : s.Start) : s.LockInvariant l := by
  constructor
  · intro t h0 hle hlock
    rw [h.numThreads] at hle
    obtain rfl | rfl : t = 1 ∨ t = 2 := by omega
    · rw [h.place₁] at hlock
      exact absurd hlock nofun
    · rw [h.place₂] at hlock
      exact absurd hlock nofun
  · intro hinit
    rw [h.initialised] at hinit
    simp at hinit

variable (s l)

/-- What a lock guarantees. A call that the lock's rules forbid ends in a panic and leaves the
lock as it is. -/
structure LockExclusive : Prop where
  exclusive : (s.inside l).length ≤ 1
  value : (s.semas (.lock l)).value = 0 ∨ (s.semas (.lock l)).value = 1
  taken : s.inside l ≠ [] → (s.semas (.lock l)).value = 0
  holder : s.holder l = 0 ∨ s.inside l = [s.holder l]
  release : s.current ∉ s.inside l → (s.lockRelease l).outcome = .panic .lockNotHeld ∧
    (s.lockRelease l).semas (.lock l) = s.semas (.lock l) ∧
    (s.lockRelease l).holder l = s.holder l ∧ (s.lockRelease l).inside l = s.inside l
  accquire : s.current ∈ s.inside l → s.place s.current = .user →
    (s.lockAccquire l).outcome = .panic .lockHeld ∧
    (s.lockAccquire l).semas (.lock l) = s.semas (.lock l) ∧
    (s.lockAccquire l).holder l = s.holder l ∧ (s.lockAccquire l).inside l = s.inside l

variable {s l}

theorem Taken.lockExclusive {o : Option Nat} (h : s.Taken l o) (hv : s.Valid) :
    s.LockExclusive l := by
  have hzero := hv.current.1
  have hinside : ∀ t ∈ s.inside l, o = some t ∧ s.place t ≠ .setHolder l := by
    intro t ht
    rw [h.inside] at ht
    cases o with
    | none => exact absurd ht (by simp [insideOf])
    | some u =>
        simp only [insideOf] at ht
        split at ht
        case isTrue => exact absurd ht (by simp)
        case isFalse hplace =>
          obtain rfl := List.mem_singleton.mp ht
          exact ⟨rfl, hplace⟩
  have howner : s.holder l = 0 ∨ s.inside l = [s.holder l] := by
    rw [h.holder, h.inside]
    cases o with
    | none => exact .inl rfl
    | some t =>
        simp only [holderOf, insideOf]
        split
        · exact .inl rfl
        case isFalse hbetween =>
          right
          rw [if_neg]
          intro hplace
          simp [hplace, Place.between] at hbetween
  constructor
  · rw [h.inside]
    cases o with
    | none => simp [insideOf]
    | some t =>
        simp only [insideOf]
        split <;> simp
  · rw [h.value]
    split <;> simp
  · intro hne
    obtain ⟨t, ht⟩ := List.exists_mem_of_ne_nil _ hne
    rw [h.value, (hinside t ht).1]
    rfl
  · exact howner
  · intro hout
    have hne : s.holder l ≠ s.current := by
      rcases howner with hnull | hone
      · rw [hnull]
        exact hzero.symm
      · intro heq
        rw [hone, heq] at hout
        exact hout (List.mem_singleton.mpr rfl)
    simp [lockRelease, hne]
  · intro hin huser
    have heq : s.holder l = s.current := by
      rw [h.holder, (hinside _ hin).1]
      simp [holderOf, huser, Place.between]
    simp [lockAccquire, heq]

end Kernel

/-- Lock mutual exclusion along every run. -/
theorem lockExclusive_of_reach {s : Kernel} {l : Nat} (run : kernelMachine.Reachable s)
    (hinit : .lock l ∈ s.initialised) : s.LockExclusive l := by
  have hinv : s.Valid ∧ s.LockInvariant l := by
    apply run.invariant
    · exact fun _ h => ⟨h.valid, h.lockInvariant⟩
    · exact fun _ _ _ h _ hstep => ⟨h.1.step hstep, h.2.step h.1 hstep⟩
  obtain ⟨o, ho⟩ := hinv.2.taken hinit
  exact ho.lockExclusive hinv.1

/-- The kernel thread takes a lock and is preempted behind `sema_down`, in front of `holder`;
another thread asks for the lock and waits. -/
theorem lockExclusive_of_reach_run : ∃ s : Kernel, s.current = 1 ∧ s.place 1 = .setHolder 0 ∧
    (s.semas (.lock 0)).waiters = [3] ∧ s.LockExclusive 0 := by
  have hfields : ((startKernel.steps (fun _ _ => true)
      (List.replicate 7 (.run .intEnable) ++ .run (.lockInit 0) :: createOff ++
        [.run .intEnable, .run (.lockAccquire 0), .run .intEnable, .tick, .tick, .tick, .tick,
          .run .intEnable, .run (.lockAccquire 0), .run .intEnable])).map fun s =>
          (s.current, s.place 1, (s.semas (.lock 0)).waiters,
            decide (.lock 0 ∈ s.initialised))) = some (1, .setHolder 0, [3], true) := by
    decide
  obtain ⟨s, hsteps, hs⟩ := Option.map_eq_some_iff.mp hfields
  simp only [Prod.mk.injEq, decide_eq_true_eq] at hs
  obtain ⟨hcurrent, hplace, hwaiters, hinit⟩ := hs
  have run : kernelMachine.Reachable s :=
    reach_steps (fun _ _ _ => trivial) (fun _ _ _ _ h => h) (.start startKernel_start) hsteps
  exact ⟨s, hcurrent, hplace, hwaiters, lockExclusive_of_reach run hinit⟩

end NickOS3.Thread
