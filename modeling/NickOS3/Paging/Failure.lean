import NickOS3.Heap.Allocator
import NickOS3.Paging.PoolTable

/-!
# Allocations that fail

What `palloc_kern`, `palloc_heap` and `malloc` leave behind when the frames run out.
-/

namespace NickOS3.Paging

open Foundation Program

/-- The table of frames, memory with all page tables, and the index of the kernel's pool are
as before. -/
structure Untouched (s s' : PagingState) : Prop where
  entries : s'.physicalPageEntries = s.physicalPageEntries
  frames : s'.frames = s.frames
  index : s'.index s'.kernelPool = s.index s.kernelPool

section Failure

variable {s s' : PagingState} {i r flags memPool : Nat} {n : Int}

/-- Once the first free entry has been allocated the call has left a trace. -/
theorem not_untouched (hi : firstFree s.physicalPageEntries = some i)
    (hallocated : (s'.physicalPageEntries i).type = .allocated) : ¬ Untouched s s' := by
  intro h
  rw [h.entries, (firstFree_eq_some hi).2] at hallocated
  cases hallocated

theorem pallocKern_pos (hrun : pallocKern n flags s = .ok (r, s')) (hr : r ≠ 0) : 0 < n := by
  by_contra hle
  rw [pallocKern, show n.toNat = 0 by omega, pallocKernLoop,
    Program.bind_run_of_ok (Program.pure_run _)] at hrun
  obtain ⟨_, _, _, hpure⟩ := Program.bind_eq_ok hrun
  cases hpure
  exact hr rfl

theorem pallocHeap_pos (hrun : pallocHeap n memPool flags s = .ok (r, s')) (hr : r ≠ 0) :
    0 < n := by
  by_contra hle
  rw [pallocHeap, show n.toNat = 0 by omega, pallocHeapLoop,
    Program.bind_run_of_ok (Program.pure_run _)] at hrun
  obtain ⟨_, _, _, hpure⟩ := Program.bind_eq_ok hrun
  cases hpure
  exact hr rfl

/-- A call of `palloc_kern` has taken the first free frame when it returns. -/
theorem pallocKern_allocated (hn : 0 < n) (hi : firstFree s.physicalPageEntries = some i)
    (hrun : pallocKern n flags s = .ok (r, s')) : (s'.physicalPageEntries i).type = .allocated := by
  have hstable := frameStable_allocated i
  obtain ⟨k, hk⟩ : ∃ k, n.toNat = k + 1 := ⟨n.toNat - 1, by omega⟩
  rw [pallocKern, hk] at hrun
  obtain ⟨res, mid, hloop, hrest⟩ := Program.bind_eq_ok hrun
  rw [pallocKernLoop, Program.bind_run_of_ok (getNextFreePhysicalPage_run hi)] at hloop
  have hmid : (mid.physicalPageEntries i).type = .allocated := by
    refine (Ensures.ite (fun _ => Stable.noFrame _) fun _ => (hstable.mapPage _ _ _).bind fun _ =>
      hstable.pallocKernLoop _ _ _ _) (s.take i) (take_allocated s i) res mid hloop
  cases res with
  | none =>
      cases hrest
      exact hmid
  | some x => exact ((hstable.zeroPages _ _ _).bind fun _ => Keeps.pure) mid hmid r s' hrest

/-- So has a call of `palloc_heap`. -/
theorem pallocHeap_allocated (hn : 0 < n) (hi : firstFree s.physicalPageEntries = some i)
    (hrun : pallocHeap n memPool flags s = .ok (r, s')) :
    (s'.physicalPageEntries i).type = .allocated := by
  have hstable := frameStable_allocated i
  obtain ⟨k, hk⟩ : ∃ k, n.toNat = k + 1 := ⟨n.toNat - 1, by omega⟩
  rw [pallocHeap, hk] at hrun
  obtain ⟨res, mid, hloop, hrest⟩ := Program.bind_eq_ok hrun
  rw [pallocHeapLoop, Program.bind_run_of_ok copyVirtPage_run] at hloop
  obtain ⟨p, taken, hnext, hround⟩ := Program.bind_eq_ok hloop
  have htaken : (taken.physicalPageEntries i).type = .allocated := by
    rw [getNextFreePhysicalPage_run (s := s.access s.kernelPool (s.index s.kernelPool)) hi] at hnext
    cases hnext
    exact take_allocated _ i
  have hmid := hstable.heapRound memPool flags (fun _ => hstable.pallocHeapLoop _ _ _ _ _) p taken
    htaken res mid hround
  cases res with
  | none =>
      cases hrest
      exact hmid
  | some x => exact ((hstable.zeroPages _ _ _).bind fun _ => Keeps.pure) mid hmid r s' hrest

/-- Without a free frame at the call nothing has happened. -/
theorem pallocKern_untouched (hn : 0 < n) (hnone : firstFree s.physicalPageEntries = none)
    (hrun : pallocKern n flags s = .ok (r, s')) : Untouched s s' := by
  obtain ⟨k, hk⟩ : ∃ k, n.toNat = k + 1 := ⟨n.toNat - 1, by omega⟩
  rw [pallocKern, hk] at hrun
  obtain ⟨res, mid, hloop, hrest⟩ := Program.bind_eq_ok hrun
  rw [pallocKernLoop, Program.bind_run_of_ok (getNextFreePhysicalPage_none hnone),
    if_pos rfl] at hloop
  obtain ⟨hres, hmid⟩ := noFrame_eq_ok hloop
  rw [hres, hmid] at hrest
  have hs' : s = s' := congrArg Prod.snd (Except.ok.inj hrest)
  rw [← hs']
  exact ⟨rfl, rfl, rfl⟩

theorem pallocHeap_untouched (hn : 0 < n) (hnone : firstFree s.physicalPageEntries = none)
    (hrun : pallocHeap n memPool flags s = .ok (r, s')) : Untouched s s' := by
  obtain ⟨k, hk⟩ : ∃ k, n.toNat = k + 1 := ⟨n.toNat - 1, by omega⟩
  rw [pallocHeap, hk] at hrun
  obtain ⟨res, mid, hloop, hrest⟩ := Program.bind_eq_ok hrun
  rw [pallocHeapLoop, Program.bind_run_of_ok copyVirtPage_run] at hloop
  obtain ⟨p, taken, hnext, hround⟩ := Program.bind_eq_ok hloop
  rw [getNextFreePhysicalPage_none (s := s.access s.kernelPool (s.index s.kernelPool))
    hnone] at hnext
  have hp : NO_ADDR = p := congrArg Prod.fst (Except.ok.inj hnext)
  have htaken : s.access s.kernelPool (s.index s.kernelPool) = taken :=
    congrArg Prod.snd (Except.ok.inj hnext)
  rw [if_pos hp.symm] at hround
  obtain ⟨hres, hmid⟩ := noFrame_eq_ok hround
  rw [hres, hmid, ← htaken] at hrest
  have hs' : s.access s.kernelPool (s.index s.kernelPool) = s' :=
    congrArg Prod.snd (Except.ok.inj hrest)
  rw [← hs']
  exact ⟨rfl, rfl, rfl⟩

/-- The last free frame goes to the page, and there is none for its table. -/
theorem pallocHeap_noTable (h : Sound s) (hn : 0 < n) (hfits : s.HeapFits 1 memPool)
    (hi : firstFree s.physicalPageEntries = some i)
    (hlast : firstFree (s.take i).physicalPageEntries = none)
    (habsent : ¬ s.frames.HasTable (slotOf (s.index memPool).toNat)) :
    pallocHeap n memPool flags s = .error .panic := by
  obtain ⟨k, hk⟩ : ∃ k, n.toNat = k + 1 := ⟨n.toNat - 1, by omega⟩
  have husable := h.usable i (firstFree_eq_some hi)
  obtain ⟨hvaligned, hpage⟩ := ofInt_heap hfits.1 (show s.index memPool < kernelPage by
    have := hfits.2
    omega)
  generalize hu : s.access s.kernelPool (s.index s.kernelPool) = u
  have hframes : u.frames = s.frames := by rw [← hu, PagingState.access]
  have hentries : u.physicalPageEntries = s.physicalPageEntries := by rw [← hu, PagingState.access]
  have hcopy : copyVirtPage s = .ok ((), u) := by rw [copyVirtPage_run, hu]
  have hnext : getNextFreePhysicalPage u = .ok (s.addr i, u.take i) := by
    rw [getNextFreePhysicalPage_run (by rw [hentries]; exact hi), PagingState.addr, hentries]
  have hvaddr : nextVaddr memPool (u.take i) = .ok (ofInt (s.index memPool * 4096), u.take i) := by
    have hindex : (u.take i).index memPool = s.index memPool := by
      rw [← hu]
      rfl
    rw [nextVaddr_run, hindex]
  have htables : Tables (u.take i).frames := by
    change Tables u.frames
    rw [hframes]
    exact h.paged.tables
  have hmap : mapPage (s.addr i) (ofInt (s.index memPool * 4096)) flags (u.take i)
      = .error .panic := by
    apply htables.mapPage_noFrame hvaligned husable.1
    · rw [hpage]
      have := hfits.1
      have := hfits.2
      unfold kernelPage at *
      omega
    · rw [hpage, take_frames, hframes]
      exact habsent
    · have hsame : (u.take i).physicalPageEntries = (s.take i).physicalPageEntries := by
        unfold PagingState.take
        dsimp only
        rw [hentries]
      rw [hsame]
      exact hlast
  have hloop : pallocHeapLoop memPool flags n.toNat 0 0 s = .error .panic := by
    rw [hk, pallocHeapLoop, Program.bind_run_of_ok hcopy, Program.bind_run_of_ok hnext,
      if_neg husable.ne_noAddr, Program.bind_run_of_ok hvaddr, Program.bind_run_of_error hmap]
  rw [pallocHeap, Program.bind_run_of_error hloop]

/-- The part of the pages `malloc` asks for that there are frames for. -/
theorem pallocHeapLoop_index {n : Nat} {frames : List Heap.Frame} {heap : Heap.HeapState}
    (h : frames.length < n) : (Heap.pallocHeapLoop n frames heap).2 = false ∧
      (Heap.pallocHeapLoop n frames heap).1.nextFreePageIndex
        = heap.nextFreePageIndex + frames.length := by
  induction n generalizing frames heap with
  | zero => omega
  | succ n ih =>
      cases frames with
      | nil => exact ⟨rfl, rfl⟩
      | cons frame rest =>
          rw [List.length_cons] at h
          obtain ⟨hres, hindex⟩ := @ih rest (heap.mapHeapPage frame) (by omega)
          refine ⟨hres, ?_⟩
          rw [Heap.pallocHeapLoop, hindex, List.length_cons, Heap.HeapState.mapHeapPage]
          dsimp only
          omega

/-- `malloc` without the frames it needs. -/
theorem malloc_noFrames {size cur : Nat} {frames : List Heap.Frame} {heap : Heap.HeapState}
    (hfit : Heap.firstFit heap.memory (Heap.roundSize size) heap.firstFreeSegment = some cur)
    (hsmall : heap.memory.read cur .memoryLength < Heap.roundSize size)
    (hfew : frames.length < Heap.extensionPages (Heap.roundSize size)) :
    ∃ heap', Heap.malloc size frames heap = some (heap', NO_ADDR) ∧
      (heap' = heap ↔ frames = []) := by
  obtain ⟨hres, hindex⟩ := @pallocHeapLoop_index _ _ heap hfew
  refine ⟨(Heap.pallocHeapLoop (Heap.extensionPages (Heap.roundSize size)) frames heap).1, ?_, ?_⟩
  · rw [Heap.malloc, hfit]
    dsimp only
    rw [if_pos hsmall, Heap.mallocExtend, Heap.pallocHeap]
    generalize Heap.pallocHeapLoop _ frames heap = loop at hres ⊢
    obtain ⟨heap', res⟩ := loop
    dsimp only at hres
    subst hres
    dsimp only
    rw [if_pos rfl]
  · constructor
    · intro heq
      rw [heq] at hindex
      exact List.length_eq_zero_iff.mp (by omega)
    · rintro rfl
      obtain ⟨k, hk⟩ : ∃ k, Heap.extensionPages (Heap.roundSize size) = k + 1 :=
        ⟨_, (Nat.sub_add_cancel hfew).symm⟩
      rw [hk]
      rfl

end Failure

/-- A call that runs out of frames leaves no trace if and only if none was free when it began;
one that runs out of them for a page table does not return at all. -/
theorem failed_allocation_leaves_no_trace_iff_no_frame_free (s : PagingState) (n : Int)
    (memPool flags : Nat) :
    (∀ s', fAssert flags = false → pallocKern n flags s = .ok (NO_ADDR, s') →
      (Untouched s s' ↔ firstFree s.physicalPageEntries = none)) ∧
    (∀ s', fAssert flags = false → pallocHeap n memPool flags s = .ok (NO_ADDR, s') →
      (Untouched s s' ↔ firstFree s.physicalPageEntries = none)) ∧
    (∀ (heap : Heap.HeapState) (size cur : Nat) (frames : List Heap.Frame),
      Heap.firstFit heap.memory (Heap.roundSize size) heap.firstFreeSegment = some cur →
      heap.memory.read cur .memoryLength < Heap.roundSize size →
      frames.length < Heap.extensionPages (Heap.roundSize size) →
        ∃ heap', Heap.malloc size frames heap = some (heap', NO_ADDR) ∧
          (heap' = heap ↔ frames = [])) ∧
    (∀ i, Sound s → 0 < n → s.HeapFits 1 memPool → firstFree s.physicalPageEntries = some i →
      firstFree (s.take i).physicalPageEntries = none →
      ¬ s.frames.HasTable (slotOf (s.index memPool).toNat) →
        pallocHeap n memPool flags s = .error .panic) := by
  refine ⟨?_, ?_, ?_, ?_⟩
  · intro s' _ hrun
    have hn := pallocKern_pos hrun (by decide)
    cases hfree : firstFree s.physicalPageEntries with
    | none => exact iff_of_true (pallocKern_untouched hn hfree hrun) rfl
    | some i =>
        exact iff_of_false (not_untouched hfree (pallocKern_allocated hn hfree hrun))
          (Option.some_ne_none i)
  · intro s' _ hrun
    have hn := pallocHeap_pos hrun (by decide)
    cases hfree : firstFree s.physicalPageEntries with
    | none => exact iff_of_true (pallocHeap_untouched hn hfree hrun) rfl
    | some i =>
        exact iff_of_false (not_untouched hfree (pallocHeap_allocated hn hfree hrun))
          (Option.some_ne_none i)
  · exact fun heap size cur frames hfit hsmall hfew => malloc_noFrames hfit hsmall hfew
  · exact fun i h hn hfits hi hlast habsent => pallocHeap_noTable h hn hfits hi hlast habsent

/-- Two pages with one frame free. -/
theorem freeFrames_short : ∃ s', pallocKern 2 0 (freeFrames 1) = .ok (NO_ADDR, s') := by
  have hfree : ∀ i, (freeFrames 1).Free i ↔ i < 1 := fun i => freeFrames_free (by decide)
  have hboot : Sound (freeFrames 1) := sound_freeFrames (by decide)
  have hfirst : firstFree (freeFrames 1).physicalPageEntries = some 0 :=
    firstFree_of_least ((hfree 0).mpr (by decide)) fun j _ => Nat.zero_le j
  obtain ⟨hnext, hmap, _⟩ := hboot.pallocKern_round (fun _ => False) 0 hfirst
  have husable := hboot.usable 0 (firstFree_eq_some hfirst)
  generalize (freeFrames 1).addr 0 = p at hnext hmap husable
  have hentries : (((freeFrames 1).take 0).mapped (tablePage (p / 4096)) p 0).physicalPageEntries
      = ((freeFrames 1).take 0).physicalPageEntries := rfl
  generalize ((freeFrames 1).take 0).mapped (tablePage (p / 4096)) p 0 = w at hmap hentries
  have hnone : firstFree w.physicalPageEntries = none := by
    cases hsecond : firstFree w.physicalPageEntries with
    | none => rfl
    | some i =>
        have hi := firstFree_eq_some hsecond
        have htake : ((freeFrames 1).take 0).Free i := by
          unfold PagingState.Free at hi ⊢
          rw [← hentries]
          exact hi
        obtain ⟨hlt, hne⟩ := (take_free i).mp htake
        have := (hfree i).mp hlt
        omega
  have hloop : pallocKernLoop 0 2 0 0 (freeFrames 1) = .ok (none, w) := by
    rw [pallocKernLoop, Program.bind_run_of_ok hnext, if_neg husable.ne_noAddr,
      Program.bind_run_of_ok hmap, pallocKernLoop,
      Program.bind_run_of_ok (getNextFreePhysicalPage_none hnone), if_pos rfl, noFrame,
      if_neg (by decide), Program.pure_run]
  refine ⟨w, ?_⟩
  rw [pallocKern, show (2 : Int).toNat = 2 by decide, Program.bind_run_of_ok hloop]
  rfl

theorem freeFrames_leave_a_trace : ∃ s', pallocKern 2 0 (freeFrames 1) = .ok (NO_ADDR, s') ∧
    ¬ Untouched (freeFrames 1) s' := by
  obtain ⟨s', hrun⟩ := freeFrames_short
  have hfirst : firstFree (freeFrames 1).physicalPageEntries = some 0 :=
    firstFree_of_least ((freeFrames_free (by decide)).mpr (by decide)) fun j _ => Nat.zero_le j
  refine ⟨s', hrun, fun huntouched => ?_⟩
  have hnone := ((failed_allocation_leaves_no_trace_iff_no_frame_free _ 2 0 0).1 s' (by decide)
    hrun).mp huntouched
  rw [hfirst] at hnone
  cases hnone

theorem failed_allocation_leaves_a_trace : ¬ ∀ (s s' : PagingState) (n : Int) (flags : Nat),
    fAssert flags = false → pallocKern n flags s = .ok (NO_ADDR, s') → Untouched s s' := by
  intro h
  obtain ⟨s', hrun⟩ := freeFrames_short
  have hfirst : firstFree (freeFrames 1).physicalPageEntries = some 0 :=
    firstFree_of_least ((freeFrames_free (by decide)).mpr (by decide)) fun j _ => Nat.zero_le j
  exact not_untouched hfirst (pallocKern_allocated (by decide) hfirst hrun)
    (h _ s' 2 0 (by decide) hrun)

end NickOS3.Paging
