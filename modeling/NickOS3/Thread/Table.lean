import NickOS3.Thread.Steps

/-!
# The thread table

Whatever the order of the steps, the running thread, the threads in the queues and those
that `thread_create` and `thread_unblock` hold on to are threads, never the null pointer.
-/

namespace NickOS3.Thread

open Foundation

/-- The thread that a place in `thread_create` or `thread_unblock` holds on to. -/
def Place.thread : Place → Option Nat
  | .unblocking t _ | .createAppend t | .createUnblock t => some t
  | _ => none

/-- The pointers to threads lead to threads `1` to `numThreads`. -/
structure Table (numThreads current idleThread : Nat) (readyThreads allThreads : List Nat)
    (place : Nat → Place) : Prop where
  current : current ≠ 0 ∧ current ≤ numThreads
  idle : idleThread ≤ numThreads
  ready : ∀ t ∈ readyThreads, t ≠ 0 ∧ t ≤ numThreads
  all : ∀ t ∈ allThreads, t ≠ 0 ∧ t ≤ numThreads
  held : ∀ u, u ≠ 0 → u ≤ numThreads → ∀ t, (place u).thread = some t →
    t ≠ 0 ∧ t ≤ numThreads

namespace Kernel

variable {s s' : Kernel}

def Valid (s : Kernel) : Prop :=
  Table s.numThreads s.current s.idleThread s.readyThreads s.allThreads s.place

theorem isThread_iff {t : Nat} : s.isThread t = true ↔ t ≠ 0 ∧ t ≤ s.numThreads := by
  simp [isThread]

theorem unblockCheck_eq_none {t : Nat} :
    s.unblockCheck t = none ↔ (t ≠ 0 ∧ t ≤ s.numThreads) ∧ s.status t = .blocked := by
  unfold unblockCheck
  rw [← isThread_iff]
  by_cases hthread : s.isThread t = true <;> by_cases hstatus : s.status t = .blocked <;>
    simp [hthread, hstatus]

/-! ## What leaves the table as it is -/

section Neutral

variable (s)

@[simp] theorem valid_stop (p : Panic) : (s.stop p).Valid ↔ s.Valid := Iff.rfl

@[simp] theorem valid_setStatus (t : Nat) (st : ThreadStatus) :
    (s.setStatus t st).Valid ↔ s.Valid := Iff.rfl

@[simp] theorem valid_setSema (r : SemaRef) (sema : Semaphore) :
    (s.setSema r sema).Valid ↔ s.Valid := Iff.rfl

@[simp] theorem valid_record (op : SharedOp) : (s.record op).Valid ↔ s.Valid := Iff.rfl

@[simp] theorem valid_count (r : SemaRef) (c : SemaCount) :
    (s.count r c).Valid ↔ s.Valid := Iff.rfl

@[simp] theorem valid_enter (name : CallName) : (s.enter name).Valid ↔ s.Valid := Iff.rfl

@[simp] theorem valid_leave : s.leave.Valid ↔ s.Valid := Iff.rfl

@[simp] theorem valid_intDisable : s.intDisable.Valid ↔ s.Valid := Iff.rfl

@[simp] theorem valid_intEnable : s.intEnable.Valid ↔ s.Valid := Iff.rfl

@[simp] theorem valid_intSet (level : Bool) : (s.intSet level).Valid ↔ s.Valid := Iff.rfl

@[simp] theorem valid_appendSleeper (t : Nat) : (s.appendSleeper t).Valid ↔ s.Valid := Iff.rfl

@[simp] theorem valid_interrupt : s.interrupt.Valid ↔ s.Valid := Iff.rfl

@[simp] theorem valid_endInterrupt : s.endInterrupt.Valid ↔ s.Valid := Iff.rfl

@[simp] theorem valid_setInitialised (r : SemaRef) :
    (s.setInitialised r).Valid ↔ s.Valid := Iff.rfl

@[simp] theorem valid_assignHolder (l t : Nat) : (s.assignHolder l t).Valid ↔ s.Valid := Iff.rfl

@[simp] theorem valid_setInside (l : Nat) (ts : List Nat) :
    (s.setInside l ts).Valid ↔ s.Valid := Iff.rfl

end Neutral

namespace Valid

theorem goto (h : s.Valid) {p : Place}
    (hp : ∀ t, p.thread = some t → t ≠ 0 ∧ t ≤ s.numThreads) : (s.goto p).Valid := by
  refine ⟨h.current, h.idle, h.ready, h.all, ?_⟩
  intro u hu hle t ht
  by_cases hcur : u = s.current
  · subst hcur
    exact hp t (by simpa using ht)
  · exact h.held u hu hle t (by simpa [hcur] using ht)

theorem appendReady (h : s.Valid) {t : Nat} (ht : t ≠ 0 ∧ t ≤ s.numThreads) :
    (s.appendReady t).Valid := by
  refine ⟨h.current, h.idle, ?_, h.all, h.held⟩
  intro u hu
  rcases List.mem_append.mp hu with hu | hu
  · exact h.ready u hu
  · rw [List.mem_singleton.mp hu]
    exact ht

theorem popReady (h : s.Valid) : s.popReady.Valid := by
  rw [popReady_eq]
  exact ⟨h.current, h.idle, fun t ht => h.ready t (List.mem_of_mem_tail ht), h.all, h.held⟩

theorem selected (h : s.Valid) (h0 : s.selected ≠ 0) :
    s.selected ≠ 0 ∧ s.selected ≤ s.numThreads := by
  refine ⟨h0, ?_⟩
  unfold Kernel.selected
  cases hready : s.readyThreads with
  | nil => exact h.idle
  | cons t rest => exact (h.ready t (by simp [hready])).2

theorem switchComplete (h : s.Valid) (prev : Nat) : (s.switchComplete prev).Valid := by
  unfold Kernel.switchComplete
  dsimp only
  split
  · exact ⟨h.current, h.idle, fun t ht => h.ready t (List.mem_of_mem_erase ht),
      fun t ht => h.all t (List.mem_of_mem_erase ht), h.held⟩
  · exact h

theorem schedule (h : s.Valid) : s.schedule.Valid := by
  unfold Kernel.schedule getNextThread
  dsimp only
  have hpop := h.popReady
  repeat' split
  · exact hpop
  · exact hpop
  · exact hpop
  · case _ h0 =>
      apply Valid.switchComplete
      refine ⟨?_, hpop.idle, hpop.ready, hpop.all, hpop.held⟩
      rw [popReady_eq]
      exact h.selected h0
  · exact hpop.switchComplete 0

theorem requeue (h : s.Valid) : s.requeue.Valid := by
  unfold Kernel.requeue
  split
  · exact h.appendReady h.current
  · exact h

theorem yieldOff (h : s.Valid) : s.yieldOff.Valid := by
  apply Valid.schedule
  apply Valid.requeue
  simpa using h

theorem threadBlock (h : s.Valid) : s.threadBlock.Valid := by
  unfold Kernel.threadBlock
  split
  · simpa using h
  · apply Valid.schedule
    simpa using h

theorem unblockOff (h : s.Valid) {t : Nat} (ht : t ≠ 0 ∧ t ≤ s.numThreads) :
    (s.unblockOff t).Valid := by
  simp only [Kernel.unblockOff, valid_intSet, valid_setStatus]
  exact Valid.appendReady (s := s.intDisable) h ht

theorem threadUnblock (h : s.Valid) (t : Nat) (created : Bool) :
    (s.threadUnblock t created).Valid := by
  unfold Kernel.threadUnblock
  dsimp only
  split
  · simpa using h
  case h_2 hcheck =>
    apply Valid.goto
    · simpa using h
    · rintro u ⟨⟩
      exact (unblockCheck_eq_none.mp hcheck).1

theorem semaDownLoop (h : s.Valid) (r : SemaRef) (level : Bool) :
    (s.semaDownLoop r level).Valid := by
  unfold Kernel.semaDownLoop
  dsimp only
  split
  · apply Valid.threadBlock
    apply Valid.goto
    · simpa using h
    · nofun
  · apply Valid.goto
    · simpa using h
    · cases r <;> nofun

theorem semaDown (h : s.Valid) (r : SemaRef) : (s.semaDown r).Valid := by
  apply Valid.semaDownLoop
  simpa using h

theorem wakeWaiter (h : s.Valid) (r : SemaRef) : (s.wakeWaiter r).Valid := by
  unfold Kernel.wakeWaiter
  split
  · exact h
  · dsimp only
    split
    · simpa using h
    case h_2 hcheck =>
      rw [valid_leave]
      apply Valid.unblockOff
      · simpa using h
      · exact (unblockCheck_eq_none.mp hcheck).1

theorem semaUp (h : s.Valid) (r : SemaRef) : (s.semaUp r).Valid := by
  have hwake : ((s.enter .semaUp).intDisable.wakeWaiter r).Valid := by
    apply Valid.wakeWaiter
    simpa using h
  unfold Kernel.semaUp
  dsimp only
  split
  · exact hwake
  · simpa using hwake

theorem threadCreate (h : s.Valid) (function : ThreadFunc) :
    (s.threadCreate function).Valid := by
  unfold Kernel.threadCreate
  apply Valid.goto
  · refine ⟨⟨h.current.1, Nat.le_succ_of_le h.current.2⟩, Nat.le_succ_of_le h.idle,
      fun t ht => ⟨(h.ready t ht).1, Nat.le_succ_of_le (h.ready t ht).2⟩,
      fun t ht => ⟨(h.all t ht).1, Nat.le_succ_of_le (h.all t ht).2⟩, ?_⟩
    intro u hu hle t ht
    by_cases hnew : u = s.numThreads + 1
    · subst hnew
      simp [Place.thread] at ht
    · have hold := h.held u hu (by simp at hle; omega) t (by simpa [hnew] using ht)
      exact ⟨hold.1, Nat.le_succ_of_le hold.2⟩
  · rintro t ⟨⟩
    simp

theorem createAppend (h : s.Valid) {new : Nat} (hnew : new ≠ 0 ∧ new ≤ s.numThreads) :
    (s.createAppend new).Valid := by
  apply Valid.goto
  · refine ⟨h.current, h.idle, h.ready, ?_, h.held⟩
    intro t ht
    rcases List.mem_append.mp ht with ht | ht
    · exact h.all t ht
    · rw [List.mem_singleton.mp ht]
      exact hnew
  · rintro t ⟨⟩
    exact hnew

theorem sleepOff (h : s.Valid) (t : Nat) : (s.sleepOff t).Valid := by
  apply Valid.goto
  · exact ⟨h.current, h.idle, fun u hu => h.ready u (List.mem_of_mem_erase hu), h.all, h.held⟩
  · nofun

theorem idleStart (h : s.Valid) : s.idleStart.Valid := by
  apply Valid.goto
  · exact ⟨h.current, h.current.2, h.ready, h.all, h.held⟩
  · nofun

theorem call (h : s.Valid) {c : KernelCall} (hcall : s.call c = some s') : s'.Valid := by
  cases c <;> simp only [Kernel.call, Option.ite_none_right_eq_some, Option.some.injEq] at hcall
  all_goals first | obtain rfl := hcall | obtain ⟨-, rfl⟩ := hcall
  case threadYield =>
    apply Valid.yieldOff
    apply Valid.goto
    · simpa using h
    · nofun
  case threadBlock => exact (h.goto (p := .blocked) nofun).threadBlock
  case threadUnblock t => exact h.threadUnblock t false
  case threadCreate null => exact h.threadCreate _
  case threadSleep t ticks =>
    unfold threadSleep
    repeat' split
    · exact h
    · simpa using h
    · apply Valid.goto
      · simpa using h
      · nofun
  case semaDown n => exact h.semaDown _
  case semaUp n => exact h.semaUp _
  case lockAccquire l =>
    unfold lockAccquire
    dsimp only
    split
    · simpa using h
    · apply Valid.goto
      · simpa using h
      · nofun
  case lockRelease l =>
    unfold lockRelease
    dsimp only
    split
    · simpa using h
    · apply Valid.goto
      · simpa using h
      · nofun
  case returns =>
    apply Valid.goto
    · simpa using h
    · nofun
  all_goals simpa [semaInit, lockInit] using h

theorem advance (h : s.Valid) {c : KernelCall} (hadvance : s.advance c = some s') :
    s'.Valid := by
  have hheld := h.held s.current h.current.1 h.current.2
  cases hplace : s.place s.current
  all_goals
    simp only [Kernel.advance, hplace, Option.some.injEq] at hadvance
    rw [hplace] at hheld
  case user => exact h.call hadvance
  all_goals subst hadvance
  case entry function =>
    cases function with
    | null => simpa [run] using h
    | idle | code =>
        apply Valid.goto
        · simpa using h
        · nofun
  case dying =>
    apply Valid.schedule
    apply Valid.goto
    · simpa using h
    · nofun
  case dead => exact h
  case initDown => exact h.semaDown _
  case blocked => exact h.goto nofun
  case waiting r level => exact h.semaDownLoop r level
  case unblocking t created =>
    have hoff := h.unblockOff (hheld t rfl)
    cases created
    all_goals
      apply Valid.goto
      · simpa using hoff
      · nofun
  case createAppend new => exact h.createAppend (hheld new rfl)
  case createUnblock new => exact h.threadUnblock new true
  case sleeping t => exact h.sleepOff t
  case accquireDown l => exact h.semaDown _
  case releaseUp l =>
    have hup := h.semaUp (.lock l)
    unfold releaseUp
    dsimp only
    split
    · exact hup
    · apply Valid.goto
      · simpa using hup
      · nofun
  case idleStart => exact h.idleStart
  case idleUp =>
    have hup := h.semaUp .started
    unfold idleUp
    dsimp only
    split
    · exact hup
    · exact hup.goto nofun
  case idleBlock => exact (h.goto (p := .idleHlt) nofun).threadBlock
  all_goals
    apply Valid.goto
    · simpa using h
    · nofun

theorem threadTick (h : s.Valid) : s.threadTick.Valid := by
  unfold Kernel.threadTick
  dsimp only
  split
  · apply Valid.yieldOff
    simpa using h
  · simpa using h

theorem step (h : s.Valid) {a : Action} (hstep : s.step a = some s') : s'.Valid := by
  apply step_cases hstep
  · exact fun _ _ _ => h.threadTick
  · intro _ _
    simpa [tickReturn] using h
  · exact fun _ _ _ _ _ hadvance => h.advance hadvance
  · intro _ st
    simpa using h

end Valid

theorem Start.valid (h : s.Start) : s.Valid := by
  unfold Valid
  rw [h.numThreads, h.current, h.idleThread, h.ready, h.all]
  refine ⟨by decide, by decide, by simp, by simp, ?_⟩
  intro u hu hle t ht
  obtain rfl | rfl : u = 1 ∨ u = 2 := by omega
  · rw [h.place₁] at ht
    exact absurd ht nofun
  · rw [h.place₂] at ht
    exact absurd ht nofun

end Kernel

/-- The thread table along every run. -/
theorem valid_of_reach {allowed : Kernel → Action → Prop} {s : Kernel}
    (run : kernelMachine.Reach allowed s) : s.Valid := by
  apply run.invariant
  · exact fun _ h => h.valid
  · exact fun _ _ _ h _ hstep => h.step hstep

end NickOS3.Thread
