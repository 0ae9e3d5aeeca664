import NickOS3.Paging.Allocator

/-!
# What stores and allocations leave alone

The allocator touches the kernel's variables only by taking a frame and by noting a new
table. A statement that survives these, and stores to memory, survives every function that
does nothing else.
-/

namespace NickOS3.Paging

open Foundation Program

/-- A statement that survives stores, taking the first free frame, and a new table. -/
structure Stable (I : PagingState → Prop) : Prop where
  set : ∀ s frame index word, I s → I (s.set frame index word)
  take : ∀ s i, firstFree s.physicalPageEntries = some i → I s → I (s.take i)
  installed : ∀ s slot, I s → I { s with installed := slot :: s.installed }

namespace Stable

variable {I : PagingState → Prop} (h : Stable I)

include h

omit h in
theorem load (vaddr : Nat) : Keeps I (Paging.load vaddr) := by
  intro s hs a s' hrun
  unfold Paging.load at hrun
  split at hrun
  · cases hrun
    exact hs
  · cases hrun

theorem modify (vaddr : Nat) (f : Nat → Nat) : Keeps I (Paging.modify vaddr f) := by
  intro s hs a s' hrun
  unfold Paging.modify at hrun
  split at hrun
  · cases hrun
    exact h.set _ _ _ _ hs
  · cases hrun

theorem getNextFree : Keeps I getNextFreePhysicalPage := by
  intro s hs a s' hrun
  unfold getNextFreePhysicalPage at hrun
  split at hrun
  · rename_i i hi
    cases hrun
    exact h.take s i hi hs
  · cases hrun
    exact hs

theorem setPde (slot ptAddr : Nat) : Keeps I (Paging.setPde slot ptAddr) :=
  (h.modify _ _).bind fun _ => (h.modify _ _).bind fun _ => h.modify _ _

theorem setPte (pt i p flags : Nat) : Keeps I (Paging.setPte pt i p flags) :=
  (h.modify _ _).bind fun _ => (h.modify _ _).bind fun _ => (h.modify _ _).bind fun _ =>
    Ensures.ite (fun _ => h.modify _ _) fun _ => Keeps.pure

theorem recordInstalled (slot : Nat) : Keeps I (Paging.recordInstalled slot) := by
  intro s hs a s' hrun
  cases hrun
  exact h.installed s slot hs

theorem mapPageWithin (fuel p v flags : Nat) : Keeps I (Paging.mapPageWithin fuel p v flags) := by
  induction fuel generalizing p v flags with
  | zero => exact Ensures.throw
  | succ fuel ih =>
      refine Ensures.ite (fun _ => Ensures.throw) fun _ => ?_
      refine (load _).bind fun pde => Keeps.bind ?_ fun _ =>
        (load _).bind fun pde => h.setPte _ _ _ _
      refine Ensures.ite (fun _ => Keeps.pure) fun _ => ?_
      exact h.getNextFree.bind fun ptAddr => (ih _ _ _).bind fun _ =>
        (h.setPde _ _).bind fun _ => h.recordInstalled _

theorem mapPage (p v flags : Nat) : Keeps I (Paging.mapPage p v flags) :=
  h.mapPageWithin _ _ _ _

theorem memset (c ptr n : Nat) : Keeps I (Paging.memset c ptr n) := by
  induction n generalizing ptr with
  | zero => exact Keeps.pure
  | succ n ih => exact (h.modify _ _).bind fun _ => ih _

theorem memcpy (dest source n : Nat) : Keeps I (Paging.memcpy dest source n) := by
  induction n generalizing dest source with
  | zero => exact Keeps.pure
  | succ n ih => exact (load _).bind fun _ => (h.modify _ _).bind fun _ => ih _ _

omit h in
theorem noFrame (flags : Nat) : Keeps I (Paging.noFrame flags) :=
  Ensures.ite (fun _ => Ensures.throw) fun _ => Keeps.pure

theorem zeroPages (flags r : Nat) (n : Int) : Keeps I (Paging.zeroPages flags r n) :=
  Ensures.ite (fun _ => h.memset _ _ _) fun _ => Keeps.pure

theorem pallocKernLoop (flags n i r : Nat) : Keeps I (Paging.pallocKernLoop flags n i r) := by
  induction n generalizing i r with
  | zero => exact Keeps.pure
  | succ n ih =>
      refine h.getNextFree.bind fun p => Ensures.ite (fun _ => noFrame _) fun _ => ?_
      exact (h.mapPage _ _ _).bind fun _ => ih _ _

theorem pallocKern (n : Int) (flags : Nat) : Keeps I (Paging.pallocKern n flags) := by
  refine (h.pallocKernLoop _ _ _ _).bind fun res => ?_
  cases res with
  | none => exact Keeps.pure
  | some r => exact (h.zeroPages _ _ _).bind fun _ => Keeps.pure

theorem clearIdentityPages : Keeps I Paging.clearIdentityPages := by
  have hloop : ∀ n i, Keeps I (clearIdentityLoop i n) := by
    intro n
    induction n with
    | zero => exact fun _ => Keeps.pure
    | succ n ih => exact fun i => (h.modify _ _).bind fun _ => ih _
  exact hloop 6 0

theorem initPool (flags : Nat) : Keeps I (Paging.initPool flags) := by
  have hloop : ∀ n i r, Keeps I (initPoolLoop flags n i r) := by
    intro n
    induction n with
    | zero => exact fun _ _ => Keeps.pure
    | succ n ih =>
        exact fun i r => h.getNextFree.bind fun p => (h.mapPage _ _ _).bind fun _ => ih _ _
  exact hloop _ _ _

theorem initialiseHeap (baseAddr length : Nat) : Keeps I (Paging.initialiseHeap baseAddr length) :=
  (h.modify _ _).bind fun _ => (h.modify _ _).bind fun _ => (h.modify _ _).bind fun _ =>
    (h.modify _ _).bind fun _ => (h.modify _ _).bind fun _ => h.modify _ _

end Stable

/-- A stable statement that does not depend on the pools and the other variables. -/
structure FrameStable (I : PagingState → Prop) : Prop extends Stable I where
  globals : ∀ s s', s'.frames = s.frames → s'.physicalPageEntries = s.physicalPageEntries →
    s'.returned = s.returned → s'.installed = s.installed → I s → I s'

namespace FrameStable

variable {I : PagingState → Prop} (h : FrameStable I)

include h

theorem assign {f : PagingState → PagingState}
    (hf : ∀ s, (f s).frames = s.frames ∧ (f s).physicalPageEntries = s.physicalPageEntries ∧
      (f s).returned = s.returned ∧ (f s).installed = s.installed) :
    Keeps I (Paging.assign f) := by
  intro s hs a s' hrun
  cases hrun
  obtain ⟨hframes, hentries, hreturned, hinstalled⟩ := hf s
  exact h.globals s _ hframes hentries hreturned hinstalled hs

theorem setupBasePd : Keeps I Paging.setupBasePd := by
  refine (h.pallocKern _ _).bind fun basePd => ?_
  refine Keeps.bind (h.assign ?_) fun _ => h.memcpy _ _ _
  exact fun _ => ⟨rfl, rfl, rfl, rfl⟩

/-- A round of `palloc_heap` from the frame on. -/
theorem heapRound (memPool flags : Nat) {m : Nat → PageM (Option Nat)} (hm : ∀ v, Keeps I (m v))
    (p : Nat) : Keeps I (if p = NO_ADDR then Paging.noFrame flags else do
      let vaddr ← nextVaddr memPool
      Paging.mapPage p vaddr flags
      Paging.assign fun s => s.linkVirtPage memPool
      m vaddr) := by
  have hvaddr : Keeps I (nextVaddr memPool) := by
    intro s hs a s' hrun
    cases hrun
    exact hs
  refine Ensures.ite (fun _ => Stable.noFrame _) fun _ => hvaddr.bind fun vaddr =>
    (h.mapPage _ _ _).bind fun _ => Keeps.bind (h.assign ?_) fun _ => hm _
  exact fun _ => ⟨rfl, rfl, rfl, rfl⟩

theorem pallocHeapLoop (memPool flags n i r : Nat) :
    Keeps I (Paging.pallocHeapLoop memPool flags n i r) := by
  induction n generalizing i r with
  | zero => exact Keeps.pure
  | succ n ih =>
      refine Keeps.bind (h.assign ?_) fun _ => h.getNextFree.bind fun p =>
        h.heapRound memPool flags (fun _ => ih _ _) p
      exact fun _ => ⟨rfl, rfl, rfl, rfl⟩

theorem pallocHeap (n : Int) (memPool flags : Nat) :
    Keeps I (Paging.pallocHeap n memPool flags) := by
  refine (h.pallocHeapLoop _ _ _ _ _).bind fun res => ?_
  cases res with
  | none => exact Keeps.pure
  | some r => exact (h.zeroPages _ _ _).bind fun _ => Keeps.pure

theorem initKernelPool : Keeps I Paging.initKernelPool := by
  refine (h.initPool _).bind fun pool => h.assign ?_
  exact fun _ => ⟨rfl, rfl, rfl, rfl⟩

theorem modifyPool (pl : Nat) (f : Pool → Pool) : Keeps I (Paging.modifyPool pl f) :=
  h.assign fun _ => ⟨rfl, rfl, rfl, rfl⟩

theorem modifyFirstPage (pl : Nat) (f : VirtPage → VirtPage) :
    Keeps I (Paging.modifyFirstPage pl f) :=
  h.assign fun _ => ⟨rfl, rfl, rfl, rfl⟩

theorem initHeapPage (pl flags : Nat) : Keeps I (Paging.initHeapPage pl flags) := by
  have hcheck : Keeps I (checkFresh pl) := by
    intro s hs a s' hrun
    unfold checkFresh at hrun
    split at hrun
    · cases hrun
    · cases hrun
      exact hs
  exact hcheck.bind fun _ => h.getNextFree.bind fun p => (h.modifyPool _ _).bind fun _ =>
    (h.modifyFirstPage _ _).bind fun _ => (h.mapPage _ _ _).bind fun _ =>
      (h.modifyFirstPage _ _).bind fun _ => (h.modifyPool _ _).bind fun _ =>
        h.initialiseHeap _ _

theorem initKernelHeap : Keeps I Paging.initKernelHeap :=
  fun s hs a s' hrun => h.initHeapPage s.kernelPool F_KERN s hs a s' hrun

end FrameStable

/-- A statement about the pools is stable. -/
theorem stable_pools (P : (Nat → Pool) → Nat → Prop) :
    Stable fun s => P s.pools s.kernelPool :=
  ⟨fun _ _ _ _ hs => hs, fun _ _ _ hs => hs, fun _ _ hs => hs⟩

/-- An entry that has been allocated stays allocated. -/
theorem frameStable_allocated (i : Nat) :
    FrameStable fun s => (s.physicalPageEntries i).type = .allocated where
  set _ _ _ _ hs := hs
  take s j _ hs := by
    unfold PagingState.take
    dsimp only
    by_cases hij : i = j
    · rw [hij, Function.update_self]
    · rw [Function.update_of_ne hij]
      exact hs
  installed _ _ hs := hs
  globals _ _ _ hentries _ _ hs := by
    rw [hentries]
    exact hs

theorem take_allocated (s : PagingState) (i : Nat) :
    ((s.take i).physicalPageEntries i).type = .allocated := by
  unfold PagingState.take
  dsimp only
  rw [Function.update_self]

end NickOS3.Paging
