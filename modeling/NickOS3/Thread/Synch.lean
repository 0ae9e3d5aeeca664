import NickOS3.Thread.Scheduler

/-!
# Semaphores and locks

The functions of `synch.c`, with `idle`, the one function of `thread.c` that uses them.
-/

namespace NickOS3.Thread

namespace Kernel

variable (s : Kernel)

/-! ## Semaphores -/

@[simps]
def setInitialised (r : SemaRef) : Kernel := { s with initialised := r :: s.initialised }

/-- `sema_init` -/
def semaInit (r : SemaRef) (value : Nat) : Kernel :=
  (((s.setSema r ⟨value, []⟩).record .malloc).count r ⟨value, 0, 0⟩).setInitialised r

/-- Where `sema_down` returns to: `lock_accquire` is the only one to call it on the semaphore
of a lock. -/
def afterDown : SemaRef → Place
  | .lock l => .setHolder l
  | _ => .user

/-- The loop of `sema_down`, up to a `thread_block` or through the rest. -/
def semaDownLoop (r : SemaRef) (level : Bool) : Kernel :=
  let sema := s.semas r
  if sema.value = 0 then
    (((s.record .malloc).setSema r { sema with waiters := sema.waiters ++ [s.current] }).goto
      (.waiting r level)).threadBlock
  else
    let s := s.setSema r { sema with value := sema.value - 1 }
    let s := s.count r { s.counts r with downs := (s.counts r).downs + 1 }
    (s.intSet level).leave.goto (afterDown r)

/-- `sema_down` -/
def semaDown (r : SemaRef) : Kernel :=
  let level := s.intFlag
  (s.enter .semaDown).intDisable.semaDownLoop r level

/-- `sema_up` wakes the first waiter. -/
def wakeWaiter (r : SemaRef) : Kernel :=
  match (s.semas r).waiters with
  | [] => s
  | t :: rest =>
      let s := (s.setSema r { s.semas r with waiters := rest }).enter .threadUnblock
      match s.unblockCheck t with
      | some p => s.stop p
      | none => (s.unblockOff t).leave

/-- `sema_up` -/
def semaUp (r : SemaRef) : Kernel :=
  let level := s.intFlag
  let s := (s.enter .semaUp).intDisable.wakeWaiter r
  if s.outcome ≠ .running then s
  else
    let s := s.setSema r { s.semas r with value := u32 ((s.semas r).value + 1) }
    let s := s.count r { s.counts r with ups := (s.counts r).ups + 1 }
    (s.intSet level).leave

section Frame

variable (r : SemaRef)

theorem wakeWaiter_eq : s.wakeWaiter r = { s with
    intFlag := (s.wakeWaiter r).intFlag
    status := (s.wakeWaiter r).status
    readyThreads := (s.wakeWaiter r).readyThreads
    semas := (s.wakeWaiter r).semas
    outcome := (s.wakeWaiter r).outcome
    sharedOps := (s.wakeWaiter r).sharedOps
    pending := (s.wakeWaiter r).pending
    returned := (s.wakeWaiter r).returned } := by
  unfold wakeWaiter
  split
  · rfl
  · dsimp only
    split
    · rfl
    · simp only [unblockOff, leave, intSet, setStatus, appendReady, record, intDisable,
        enter, setSema]

theorem semaUp_eq : s.semaUp r = { s with
    intFlag := (s.semaUp r).intFlag
    status := (s.semaUp r).status
    readyThreads := (s.semaUp r).readyThreads
    semas := (s.semaUp r).semas
    outcome := (s.semaUp r).outcome
    sharedOps := (s.semaUp r).sharedOps
    pending := (s.semaUp r).pending
    returned := (s.semaUp r).returned
    counts := (s.semaUp r).counts } := by
  unfold semaUp
  rw [wakeWaiter_eq]
  dsimp only
  split <;> rfl

@[simp] theorem semaUp_current : (s.semaUp r).current = s.current := by rw [semaUp_eq]

@[simp] theorem semaUp_inService : (s.semaUp r).inService = s.inService := by rw [semaUp_eq]

@[simp] theorem semaUp_allThreads : (s.semaUp r).allThreads = s.allThreads := by rw [semaUp_eq]

@[simp] theorem semaUp_sleeperList : (s.semaUp r).sleeperList = s.sleeperList := by rw [semaUp_eq]

@[simp] theorem semaUp_idleThread : (s.semaUp r).idleThread = s.idleThread := by rw [semaUp_eq]

@[simp] theorem semaUp_tickCount : (s.semaUp r).tickCount = s.tickCount := by rw [semaUp_eq]

@[simp] theorem semaUp_numThreads : (s.semaUp r).numThreads = s.numThreads := by rw [semaUp_eq]

@[simp] theorem semaUp_holder : (s.semaUp r).holder = s.holder := by rw [semaUp_eq]

@[simp] theorem semaUp_place : (s.semaUp r).place = s.place := by rw [semaUp_eq]

@[simp] theorem semaUp_inHandler : (s.semaUp r).inHandler = s.inHandler := by rw [semaUp_eq]

@[simp] theorem semaUp_created : (s.semaUp r).created = s.created := by rw [semaUp_eq]

@[simp] theorem semaUp_kills : (s.semaUp r).kills = s.kills := by rw [semaUp_eq]

@[simp] theorem semaUp_completions : (s.semaUp r).completions = s.completions := by rw [semaUp_eq]

@[simp] theorem semaUp_initialised : (s.semaUp r).initialised = s.initialised := by rw [semaUp_eq]

@[simp] theorem semaUp_inside : (s.semaUp r).inside = s.inside := by rw [semaUp_eq]

end Frame

section Up

variable {s} {r : SemaRef} {t : Nat} {rest : List Nat} {p : Panic}

/-- `sema_up` without waiters. -/
theorem semaUp_empty (h : (s.semas r).waiters = []) (hrun : s.outcome = .running) :
    s.semaUp r = { s with
      semas := Function.update s.semas r ⟨u32 ((s.semas r).value + 1), []⟩
      counts := Function.update s.counts r { s.counts r with ups := (s.counts r).ups + 1 }
      returned := ⟨.semaUp, s.intFlag, s.intFlag⟩ :: s.returned } := by
  simp only [semaUp, wakeWaiter, enter, intDisable, h, hrun, setSema, count, intSet, leave,
    ne_eq, not_true_eq_false, if_false]
  cases hf : s.intFlag <;> simp

/-- `sema_up` wakes the first waiter. -/
theorem semaUp_wake (h : (s.semas r).waiters = t :: rest) (hcheck : s.unblockCheck t = none)
    (hrun : s.outcome = .running) :
    s.semaUp r = { s with
      status := Function.update s.status t .ready
      readyThreads := s.readyThreads ++ [t]
      semas := Function.update s.semas r ⟨u32 ((s.semas r).value + 1), rest⟩
      counts := Function.update s.counts r { s.counts r with ups := (s.counts r).ups + 1 }
      sharedOps := (.append .readyThreads, false) :: (.malloc, false) :: s.sharedOps
      returned := ⟨.semaUp, s.intFlag, s.intFlag⟩ :: ⟨.threadUnblock, false, false⟩ ::
        s.returned } := by
  have hcheck' : (((s.enter .semaUp).intDisable.setSema r
      { s.semas r with waiters := rest }).enter .threadUnblock).unblockCheck t = none := hcheck
  simp only [semaUp, wakeWaiter, enter_semas, intDisable_semas, h, hcheck']
  simp only [enter, intDisable, hrun, setSema, count, intSet, leave, unblockOff, appendReady,
    record, setStatus, ne_eq, not_true_eq_false, if_false]
  cases hf : s.intFlag <;> simp

/-- `sema_up` panics in `thread_unblock`. -/
theorem semaUp_stop (h : (s.semas r).waiters = t :: rest)
    (hcheck : s.unblockCheck t = some p) :
    s.semaUp r = { s with
      intFlag := false
      semas := Function.update s.semas r { s.semas r with waiters := rest }
      pending := Function.update s.pending s.current
        (⟨.threadUnblock, false⟩ :: ⟨.semaUp, s.intFlag⟩ :: s.pending s.current)
      outcome := .panic p } := by
  have hcheck' : (((s.enter .semaUp).intDisable.setSema r
      { s.semas r with waiters := rest }).enter .threadUnblock).unblockCheck t = some p := hcheck
  simp only [semaUp, wakeWaiter, enter_semas, intDisable_semas, h, hcheck']
  simp [enter, intDisable, setSema, stop]

theorem unblockCheck_eq_some (h : s.unblockCheck t = some p) :
    p = .notThread ∨ p = .notBlocked := by
  unfold unblockCheck at h
  split at h
  · exact .inl (Option.some.inj h).symm
  · split at h
    · exact .inr (Option.some.inj h).symm
    · exact absurd h nofun

end Up

/-! ## Locks -/

@[simps]
def assignHolder (l t : Nat) : Kernel := { s with holder := Function.update s.holder l t }

/-- Which threads are between the return of `lock_accquire` and that of `lock_release`. -/
@[simps]
def setInside (l : Nat) (ts : List Nat) : Kernel :=
  { s with inside := Function.update s.inside l ts }

/-- `lock_init` -/
def lockInit (l : Nat) : Kernel := ((s.assignHolder l 0).setInside l []).semaInit (.lock l) 1

/-- `lock_accquire`, up to `sema_down`. -/
def lockAccquire (l : Nat) : Kernel :=
  let s := s.enter .lockAccquire
  if s.holder l = s.current then s.stop .lockHeld else s.goto (.accquireDown l)

/-- `lock_accquire` behind `sema_down`. -/
def setHolder (l : Nat) : Kernel :=
  ((s.assignHolder l s.current).setInside l (s.current :: s.inside l)).leave.goto .user

/-- `lock_release`, up to the check of the holder. -/
def lockRelease (l : Nat) : Kernel :=
  let s := s.enter .lockRelease
  if s.holder l ≠ s.current then s.stop .lockNotHeld else s.goto (.clearHolder l)

/-- `lock_release` clears the holder. -/
def clearHolder (l : Nat) : Kernel := (s.assignHolder l 0).goto (.releaseUp l)

/-- The rest of `lock_release`. -/
def releaseUp (l : Nat) : Kernel :=
  let s := s.semaUp (.lock l)
  if s.outcome ≠ .running then s
  else (s.setInside l ((s.inside l).erase s.current)).leave.goto .user

/-! ## The idle thread -/

@[simps]
def setIdleThread : Kernel := { s with idleThread := s.current }

/-- `idle` sets `idle_thread`. -/
def idleStart : Kernel := s.setIdleThread.goto .idleUp

/-- `idle` raises `init_started`. -/
def idleUp : Kernel :=
  let s := s.semaUp .started
  if s.outcome ≠ .running then s else s.goto .idleLoop

end Kernel

end NickOS3.Thread
