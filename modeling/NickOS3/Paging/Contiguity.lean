import NickOS3.Paging.Reachability

/-!
# The pages `palloc_kern` returns

The frames that a call takes are the first free ones of the table; the pages from the returned
address on are theirs exactly when they are consecutive.
-/

namespace NickOS3.Paging

open Foundation Program

/-- A frame that was free before and is allocated after. -/
def TookFrame (s s' : PagingState) (frame : Nat) : Prop :=
  ∃ i, s.Free i ∧ (s'.physicalPageEntries i).type = .allocated ∧ s.addr i / 4096 = frame

/-- The pages from `r` on are mapped to distinct frames that have just been taken. -/
structure Contiguous (s s' : PagingState) (r n : Nat) : Prop where
  mapped : ∀ k < n, ∃ frame, frameOf s'.frames (pageOf (r + k * PGSIZE)) = some frame ∧
    TookFrame s s' frame
  distinct : ∀ k < n, ∀ k' < n, k ≠ k' →
    frameOf s'.frames (pageOf (r + k * PGSIZE)) ≠ frameOf s'.frames (pageOf (r + k' * PGSIZE))

section Entries

variable {s s' : PagingState} {i r flags : Nat} {n : Int}

/-- Only the table of frames matters. -/
theorem FramesConsecutive.congr {n : Nat} (h : FramesConsecutive s n)
    (hentries : s'.physicalPageEntries = s.physicalPageEntries) : FramesConsecutive s' n := by
  unfold FramesConsecutive PagingState.freeEntries PagingState.addr at h ⊢
  rw [hentries]
  exact h

theorem length_freeEntries_le (s : PagingState) : s.freeEntries.length ≤ MAX_PHYS_PAGES := by
  have h := List.length_filter_le (fun i => decide ((s.physicalPageEntries i).type = .free))
    (List.range MAX_PHYS_PAGES)
  rw [List.length_range] at h
  exact h

theorem freeEntries_nodup (s : PagingState) : s.freeEntries.Nodup :=
  List.nodup_range.filter _

theorem firstFree_eq_head (s : PagingState) :
    firstFree s.physicalPageEntries = s.freeEntries.head? := by
  unfold firstFree PagingState.freeEntries
  rw [List.head?_filter]

/-- Taking the first free entry. -/
theorem freeEntries_take (h : firstFree s.physicalPageEntries = some i) :
    s.freeEntries = i :: (s.take i).freeEntries := by
  have hhead := (firstFree_eq_head s).symm.trans h
  obtain ⟨rest, hrest⟩ : ∃ rest, s.freeEntries = i :: rest := by
    cases hlist : s.freeEntries with
    | nil =>
        rw [hlist] at hhead
        cases hhead
    | cons j rest =>
        rw [hlist] at hhead
        exact ⟨rest, by rw [Option.some.inj hhead]⟩
  have hnodup := freeEntries_nodup s
  have hfilter : (s.take i).freeEntries = s.freeEntries.filter fun j => j ≠ i := by
    unfold PagingState.freeEntries PagingState.take
    rw [List.filter_filter]
    refine List.filter_congr fun j _ => ?_
    dsimp only
    by_cases hj : j = i
    · simp [hj]
    · simp [hj]
  rw [hrest] at hnodup
  obtain ⟨hnot, _⟩ := List.nodup_cons.mp hnodup
  rw [hfilter, hrest, List.filter_cons_of_neg (by simp), List.filter_eq_self.mpr]
  intro j hj
  simp only [ne_eq, decide_not, Bool.not_eq_eq_eq_not, Bool.not_true, decide_eq_false_iff_not]
  rintro rfl
  exact hnot hj

/-- What the loop of `palloc_kern` has done to the table when it returns an address. -/
theorem Sound.pallocKernLoop_entries (h : Sound s) {x i₀ n : Nat}
    (hrun : Paging.pallocKernLoop flags n i₀ r s = .ok (some x, s')) :
    n ≤ s.freeEntries.length ∧ s'.freeEntries = s.freeEntries.drop n ∧
      ∀ i ∈ s.freeEntries.take n, (s'.physicalPageEntries i).type = .allocated := by
  induction n generalizing i₀ r s with
  | zero =>
      cases hrun
      exact ⟨Nat.zero_le _, rfl, fun i hi => by simp at hi⟩
  | succ n ih =>
      rw [Paging.pallocKernLoop] at hrun
      cases hfree : firstFree s.physicalPageEntries with
      | none =>
          rw [Program.bind_run_of_ok (getNextFreePhysicalPage_none hfree), if_pos rfl] at hrun
          cases (noFrame_eq_ok hrun).1
      | some j =>
          obtain ⟨hget, hmap, hkept⟩ := h.pallocKern_round (fun _ => False) flags hfree
          rw [Program.bind_run_of_ok hget,
            if_neg (h.usable j (firstFree_eq_some hfree)).ne_noAddr,
            Program.bind_run_of_ok hmap] at hrun
          have hentries : ((s.take j).mapped (tablePage (s.addr j / 4096)) (s.addr j)
              flags).freeEntries = (s.take j).freeEntries := rfl
          have hmapped : (((s.take j).mapped (tablePage (s.addr j / 4096)) (s.addr j)
              flags).physicalPageEntries j).type = .allocated := take_allocated s j
          have hallocated : (s'.physicalPageEntries j).type = .allocated :=
            (frameStable_allocated j).pallocKernLoop _ _ _ _ _ hmapped _ _ hrun
          obtain ⟨hle, hdrop, hall⟩ := ih hkept.sound hrun
          rw [hentries] at hle hdrop hall
          rw [freeEntries_take hfree, List.length_cons, List.drop_succ_cons, List.take_succ_cons]
          refine ⟨by omega, hdrop, ?_⟩
          intro i hi
          rcases List.mem_cons.mp hi with rfl | hmem
          · exact hallocated
          · exact hall i hmem

/-- The frames that a call of `palloc_kern` has taken. -/
theorem Sound.pallocKern_took (h : Sound s) {x n : Nat}
    (hrun : Paging.pallocKernLoop flags n 0 0 s = .ok (some x, s')) {frame : Nat} :
    TookFrame s s' frame ↔ ∃ i ∈ s.freeEntries.take n, s.addr i / 4096 = frame := by
  obtain ⟨hle, hdrop, hall⟩ := h.pallocKernLoop_entries hrun
  constructor
  · rintro ⟨i, hfree, hallocated, hframe⟩
    have hmem := mem_freeEntries.mpr hfree
    rw [← List.take_append_drop n s.freeEntries] at hmem
    rcases List.mem_append.mp hmem with hin | hout
    · exact ⟨i, hin, hframe⟩
    · rw [← hdrop, mem_freeEntries] at hout
      rw [hout.2] at hallocated
      cases hallocated
  · rintro ⟨i, hin, hframe⟩
    exact ⟨i, mem_freeEntries.mp (List.mem_of_mem_take hin), hall i hin, hframe⟩

/-- `memset` leaves the table of frames alone. -/
theorem memset_entries {c ptr n : Nat} (hrun : memset c ptr n s = .ok ((), s')) :
    s'.physicalPageEntries = s.physicalPageEntries := by
  induction n generalizing ptr s with
  | zero =>
      cases hrun
      rfl
  | succ n ih =>
      obtain ⟨_, mid, hstore, hrest⟩ := Program.bind_eq_ok hrun
      have hmid : mid.physicalPageEntries = s.physicalPageEntries := by
        unfold store modify at hstore
        split at hstore
        · cases hstore
          rfl
        · cases hstore
      exact (ih hrest).trans hmid

/-- A call of `palloc_kern` that returns an address. -/
theorem Sound.pallocKern_returns (h : Sound s) (hn : 1 ≤ n) (hclear : s.ClearsApart n flags)
    (hrun : Paging.pallocKern n flags s = .ok (r, s')) (hr : r ≠ NO_ADDR) : Sound s' ∧
      (∃ j, firstFree s.physicalPageEntries = some j ∧ r = kptov (s.addr j)) ∧
      n.toNat ≤ MAX_PHYS_PAGES ∧ ∀ frame, TookFrame s s' frame ↔
        ∃ i ∈ s.freeEntries.take n.toNat, s.addr i / 4096 = frame := by
  have hkept : Kept (fun _ => False) s s' := h.pallocKern hclear hrun
  obtain ⟨res, mid, hloop, hrest⟩ := Program.bind_eq_ok hrun
  cases res with
  | none =>
      cases hrest
      exact absurd rfl hr
  | some x =>
      obtain ⟨_, mid', hzero, hpure⟩ := Program.bind_eq_ok hrest
      cases hpure
      have hentries : s'.physicalPageEntries = mid.physicalPageEntries := by
        unfold zeroPages at hzero
        split at hzero
        · exact memset_entries hzero
        · cases hzero
          rfl
      have hres := (h.pallocKernLoop hloop : Kept (fun _ => False) _ _ ∧ _).2 r rfl
      rw [if_pos ⟨rfl, by omega⟩] at hres
      refine ⟨hkept.sound, hres,
        (h.pallocKernLoop_entries hloop).1.trans (length_freeEntries_le s), fun frame => ?_⟩
      rw [← h.pallocKern_took hloop]
      unfold TookFrame
      rw [hentries]

/-- The page at a distance from the page of a frame of the window. -/
theorem pageOf_kptov_add {address k : Nat} (haligned : address % 4096 = 0)
    (hlt : address / 4096 < windowFrames) :
    pageOf (kptov address + k * PGSIZE) = kernelPage + (address / 4096 + k) := by
  unfold windowFrames at hlt
  unfold pageOf kptov kernelPage PGSIZE u32
  omega

/-- What the pages from that of a frame of the window on are mapped to. -/
theorem Paged.frameOf_kptov_add {m : Frames} (h : Paged m) {address k frame : Nat}
    (haligned : address % 4096 = 0) (hlt : address / 4096 < windowFrames) (hk : k < MAX_PHYS_PAGES)
    (hframe : frameOf m (pageOf (kptov address + k * PGSIZE)) = some frame) :
    address / 4096 + k < windowFrames ∧ frame = address / 4096 + k := by
  rw [pageOf_kptov_add haligned hlt] at hframe
  have hin : address / 4096 + k < windowFrames := by
    by_contra hge
    have hlast : kernelPage + (address / 4096 + k) < 1048576 := by
      unfold windowFrames at hlt
      unfold MAX_PHYS_PAGES at hk
      unfold kernelPage
      omega
    refine h.high _ ?_ (hasTable_of_frameOf hlast hframe)
    unfold windowFrames at hge
    unfold slotOf kernelPage
    omega
  rw [← tablePage_window hin, h.frameOf_window hin] at hframe
  exact ⟨hin, (Option.some.inj hframe).symm⟩

/-- Whether the pages from the returned address on are the ones of the frames taken. -/
theorem Sound.contiguous_iff (h : Sound s) (hn : 1 ≤ n) (hclear : s.ClearsApart n flags)
    (hrun : Paging.pallocKern n flags s = .ok (r, s')) (hr : r ≠ NO_ADDR) :
    Contiguous s s' r n.toNat ↔ FramesConsecutive s n.toNat := by
  obtain ⟨hsound, ⟨j, hj, hreturned⟩, hmax, htook⟩ := h.pallocKern_returns hn hclear hrun hr
  rw [hreturned]
  obtain ⟨haligned, hlt, _⟩ := h.usable j (firstFree_eq_some hj)
  constructor
  · intro hcontiguous j' hj' k hk
    obtain rfl : j' = j := Option.some.inj (hj'.symm.trans hj)
    obtain ⟨frame, hframe, htaken⟩ := hcontiguous.mapped k hk
    obtain ⟨_, rfl⟩ := hsound.paged.frameOf_kptov_add haligned hlt (by omega) hframe
    exact (htook _).mp htaken
  · intro hconsecutive
    have hmapped : ∀ k < n.toNat,
        frameOf s'.frames (pageOf (kptov (s.addr j) + k * PGSIZE)) =
          some (s.addr j / 4096 + k) := by
      intro k hk
      obtain ⟨i, hmem, hframe⟩ := hconsecutive j hj k hk
      have hin : s.addr j / 4096 + k < windowFrames := by
        rw [← hframe]
        exact (h.usable i (mem_freeEntries.mp (List.mem_of_mem_take hmem))).2.1
      rw [pageOf_kptov_add haligned hlt, ← tablePage_window hin]
      exact hsound.paged.frameOf_window hin
    constructor
    · intro k hk
      exact ⟨_, hmapped k hk, (htook _).mpr (hconsecutive j hj k hk)⟩
    · intro k hk k' hk' hne heq
      rw [hmapped k hk, hmapped k' hk'] at heq
      have := Option.some.inj heq
      omega

/-- With enough free entries the loop of `palloc_kern` returns an address. -/
theorem Sound.pallocKernLoop_run (h : Sound s) {n i₀ : Nat} (hn : n ≤ s.freeEntries.length) :
    ∃ x s', Paging.pallocKernLoop flags n i₀ r s = .ok (some x, s') := by
  induction n generalizing i₀ r s with
  | zero => exact ⟨r, s, rfl⟩
  | succ n ih =>
      cases hfree : firstFree s.physicalPageEntries with
      | none =>
          have hempty : s.freeEntries = [] :=
            List.eq_nil_iff_forall_not_mem.mpr fun i hi =>
              firstFree_eq_none hfree i (mem_freeEntries.mp hi)
          rw [hempty] at hn
          exact absurd hn (Nat.not_succ_le_zero n)
      | some j =>
          obtain ⟨hget, hmap, hkept⟩ := h.pallocKern_round (fun _ => False) flags hfree
          rw [freeEntries_take hfree, List.length_cons] at hn
          have hleft : n ≤ ((s.take j).mapped (tablePage (s.addr j / 4096)) (s.addr j)
              flags).freeEntries.length := Nat.le_of_succ_le_succ hn
          rw [Paging.pallocKernLoop, Program.bind_run_of_ok hget,
            if_neg (h.usable j (firstFree_eq_some hfree)).ne_noAddr, Program.bind_run_of_ok hmap]
          exact ih hkept.sound hleft

end Entries

/-- In a run that keeps the page tables `palloc_kern` returns a contiguous region if and only if
the first free frames are consecutive. -/
theorem palloc_kern_contiguous_iff_frames_consecutive {k : PagingRun}
    (run : pagingMachine.Reach (fun k c => c.KeepsTables k) k) (hstage : k.stage ≠ .booted)
    {n : Int} {flags r : Nat} {s' : PagingState} (hn : 1 ≤ n)
    (hclear : k.state.ClearsApart n flags) (hrun : pallocKern n flags k.state = .ok (r, s'))
    (hr : r ≠ NO_ADDR) :
    Contiguous k.state s' r n.toNat ↔ FramesConsecutive k.state n.toNat := by
  rcases reach_sound (run.mono fun _ _ h => h.1) with ⟨hbooted, _⟩ | ⟨_, hsound⟩
  · exact absurd hbooted hstage
  · exact hsound.contiguous_iff hn hclear hrun hr

/-! ## Single pages -/

/-- The last two pages have no neighbours. -/
def scatteredMap : List MemoryMapEntry :=
  [⟨0x100000, 0x21000⟩, ⟨0x200000, 0x1000⟩, ⟨0x300000, 0x1000⟩]

theorem usableMap_scattered : UsableMap scatteredMap := ⟨by decide, by decide, by decide⟩

theorem pageAt_scattered {n x : Nat} {r : MemoryMapEntry} (hn : 32 ≤ n)
    (h : pageAt scatteredMap n = some (r, x)) :
    n = 32 ∧ r.base = 0x100000 ∧ x = 32 ∨ n = 33 ∧ r.base = 0x200000 ∧ x = 0 ∨
      n = 34 ∧ r.base = 0x300000 ∧ x = 0 := by
  have hfirst : (⟨0x100000, 0x21000⟩ : MemoryMapEntry).maxPages.toNat = 33 := by decide
  have hsecond : (⟨0x200000, 0x1000⟩ : MemoryMapEntry).maxPages.toNat = 1 := by decide
  have hthird : (⟨0x300000, 0x1000⟩ : MemoryMapEntry).maxPages.toNat = 1 := by decide
  rw [scatteredMap, pageAt, hfirst, pageAt, hsecond, pageAt, hthird, pageAt] at h
  split at h
  · rename_i hlt
    cases h
    exact .inl ⟨by omega, rfl, by omega⟩
  · split at h
    · rename_i hlt
      cases h
      exact .inr (.inl ⟨by omega, rfl, by omega⟩)
    · split at h
      · rename_i hlt
        cases h
        exact .inr (.inr ⟨by omega, rfl, by omega⟩)
      · cases h

theorem tablesFit_scattered : TablesFit scatteredMap := by
  intro n _ hnot r x hpage
  have hge : 32 ≤ n := by
    by_contra hlt
    exact hnot (.inl (by omega))
  have hcases := pageAt_scattered hge hpage
  unfold BootTable directoryFrame windowFrames
  refine ⟨by omega, by omega, by omega, ?_⟩
  intro hfirst k hk
  omega

/-- After `setupAvailablePages` two frames are free, and they are apart. -/
theorem setup_scattered : ∃ s', setupAvailablePages scatteredMap blankBoot = .ok ((), s') ∧
    (∀ i, s'.Free i ↔ i = 33 ∨ i = 34) ∧
    s'.addr 33 = 0x200 * 4096 ∧ s'.addr 34 = 0x300 * 4096 := by
  obtain ⟨u, s', hprepared, hrun, _, _, _, hentries⟩ :=
    atBoot_blankBoot.setup_run scatteredMap ⟨0x100000, 0x21000⟩ 32 (by decide) (by decide)
      basePdFits_plain
  have hfree : ∀ i, s'.Free i ↔ u.Free i ∧ i ≠ 32 := by
    intro i
    rw [← take_free]
    unfold PagingState.Free
    rw [hentries]
  have hpage : ∀ i, u.Free i → (i = 32 ∨ i = 33 ∨ i = 34) ∧
      (i = 33 → u.addr i = 0x200 * 4096) ∧ (i = 34 → u.addr i = 0x300 * 4096) := by
    intro i hi
    obtain ⟨_, r, x, hpage, haddr⟩ := hprepared.free i hi
    have hcases := pageAt_scattered (hprepared.least hi) hpage
    rw [haddr]
    unfold u32
    omega
  have haddr : ∀ i, s'.addr i = u.addr i := by
    intro i
    rw [PagingState.addr, hentries, ← PagingState.addr, take_addr]
  have hthree : u.Free 33 ∧ u.Free 34 :=
    ⟨hprepared.free_of_page (by decide) (by decide)
        (show pageAt scatteredMap 33 = some (⟨0x200000, 0x1000⟩, 0) by decide),
      hprepared.free_of_page (by decide) (by decide)
        (show pageAt scatteredMap 34 = some (⟨0x300000, 0x1000⟩, 0) by decide)⟩
  refine ⟨s', hrun, fun i => ?_, ?_, ?_⟩
  · rw [hfree]
    constructor
    · rintro ⟨hi, hne⟩
      exact (hpage i hi).1.resolve_left hne
    · rintro (rfl | rfl)
      · exact ⟨hthree.1, by decide⟩
      · exact ⟨hthree.2, by decide⟩
  · rw [haddr]
    exact (hpage 33 hthree.1).2.1 rfl
  · rw [haddr]
    exact (hpage 34 hthree.2).2.2 rfl

/-- Two pages of the two frames. -/
theorem scattered_call : ∃ k : PagingRun, pagingMachine.Reach (fun k c => c.KeepsTables k) k ∧
    k.stage = .available ∧ ¬ FramesConsecutive k.state 2 ∧
    ∃ r s', r ≠ NO_ADDR ∧ pallocKern 2 0 k.state = .ok (r, s') := by
  obtain ⟨s, hrun, hfree, haddr, haddr'⟩ := setup_scattered
  have hreach : pagingMachine.Reach (fun k c => c.KeepsTables k) ⟨s, .available, scatteredMap⟩ :=
    reach_setup usableMap_scattered ⟨tablesFit_scattered, trivial⟩ hrun
  have hsound := (atBoot_blankBoot.setup usableMap_scattered tablesFit_scattered hrun).1
  have hfirst : firstFree s.physicalPageEntries = some 33 := by
    refine firstFree_of_least ((hfree 33).mpr (.inl rfl)) fun j hj => ?_
    have := (hfree j).mp hj
    omega
  refine ⟨⟨s, .available, scatteredMap⟩, hreach, rfl, ?_, ?_⟩
  · intro hconsecutive
    obtain ⟨i, hmem, heq⟩ := hconsecutive 33 hfirst 1 (by decide)
    rw [haddr] at heq
    rcases (hfree i).mp (mem_freeEntries.mp (List.mem_of_mem_take hmem)) with rfl | rfl
    · rw [haddr] at heq
      omega
    · rw [haddr'] at heq
      omega
  · have hlength : 2 ≤ s.freeEntries.length := by
      have hmem : 34 ∈ s.freeEntries := mem_freeEntries.mpr ((hfree 34).mpr (.inr rfl))
      rw [freeEntries_take hfirst] at hmem ⊢
      have hrest := List.length_pos_of_mem ((List.mem_cons.mp hmem).resolve_left (by decide))
      rw [List.length_cons]
      omega
    obtain ⟨x, s', hloop⟩ : ∃ x s', Paging.pallocKernLoop 0 2 0 0 s = .ok (some x, s') :=
      hsound.pallocKernLoop_run hlength
    have hcall : pallocKern 2 0 s = .ok (x, s') := by
      rw [pallocKern, show (2 : Int).toNat = 2 by decide, Program.bind_run_of_ok hloop]
      dsimp only
      have hzero : zeroPages 0 x 2 s' = .ok ((), s') := by
        unfold zeroPages
        rw [if_neg (by decide), Program.pure_run]
      rw [Program.bind_run_of_ok hzero, Program.pure_run]
    refine ⟨x, s', ?_, hcall⟩
    have hres := (hsound.pallocKernLoop hloop : Kept (fun _ => False) _ _ ∧ _).2 x rfl
    rw [if_pos ⟨rfl, by decide⟩] at hres
    obtain ⟨j, hj, hx⟩ := hres
    have haligned := kptov_aligned (hsound.usable j (firstFree_eq_some hj)).1
    rw [hx]
    intro heq
    rw [heq] at haligned
    exact absurd haligned (by decide)

theorem noZero_clearsApart (s : PagingState) (n : Int) : s.ClearsApart n 0 :=
  fun hzero => absurd hzero (by decide)

theorem scattered_pages_not_contiguous : ∃ (s s' : PagingState) (r : Nat),
    pallocKern 2 0 s = .ok (r, s') ∧ ¬ Contiguous s s' r 2 := by
  obtain ⟨k, run, hstage, hscattered, r, s', hr, hrun⟩ := scattered_call
  refine ⟨k.state, s', r, hrun, fun hcontiguous => hscattered ?_⟩
  exact (palloc_kern_contiguous_iff_frames_consecutive run (by rw [hstage]; decide) (by decide)
    (noZero_clearsApart _ _) hrun hr).mp hcontiguous

theorem palloc_kern_not_contiguous_in_every_run :
    ¬ ∀ (k : PagingRun) (n : Int) (flags r : Nat) (s' : PagingState), pagingMachine.Reachable k →
      1 ≤ n → pallocKern n flags k.state = .ok (r, s') → r ≠ NO_ADDR →
        Contiguous k.state s' r n.toNat := by
  intro h
  obtain ⟨k, run, hstage, hscattered, r, s', hr, hrun⟩ := scattered_call
  rcases reach_sound (run.mono fun _ _ h => h.1) with ⟨hbooted, _⟩ | ⟨_, hsound⟩
  · rw [hstage] at hbooted
    cases hbooted
  · have hcontiguous := h k 2 0 r s' (run.mono fun _ _ _ => trivial) (by decide) hrun hr
    exact hscattered ((hsound.contiguous_iff (by decide) (noZero_clearsApart _ _) hrun hr).mp
      hcontiguous)

end NickOS3.Paging
