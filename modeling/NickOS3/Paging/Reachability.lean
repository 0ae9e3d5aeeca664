import NickOS3.Paging.BasePd

/-!
# The page tables and the console over whole runs

Which calls keep the page tables where the kernel looks for them, and what follows for the
translation of the console.
-/

namespace NickOS3.Paging

open Foundation Program

/-- The frames of the boot tables. -/
def BootTable (frame : Nat) : Prop :=
  frame = directoryFrame ∨ 0x1100 ≤ frame ∧ frame ≤ 0x1105 ∨ 0x1400 ≤ frame ∧ frame ≤ 0x1405

instance (frame : Nat) : Decidable (BootTable frame) :=
  inferInstanceAs (Decidable (_ ∨ _))

/-- The pages of the table lie in the kernel's window and are no boot tables, and neither are
the frames from the first page on that are cleared with it for `base_pd`. -/
def TablesFit (regions : List MemoryMapEntry) : Prop :=
  MapFits (fun n r x => r.base % 4096 = 0 ∧ r.base / 4096 + x < windowFrames ∧
    ¬ BootTable (r.base / 4096 + x) ∧
      (n = 32 → ∀ k < 4, ¬ BootTable (r.base / 4096 + x + k))) regions

section Setup

variable {regions : List MemoryMapEntry} {s u s' : PagingState} {heap : Nat → Prop}

theorem bootMemory_isTable (m : Frames) (f : Nat) : (bootMemory m).IsTable f ↔ BootTable f := by
  unfold Frames.IsTable BootTable
  constructor
  · rintro (h | ⟨slot, hslot, htable⟩)
    · exact .inl h
    · have hcases := (bootMemory_hasTable m slot).mp hslot
      rw [bootMemory_table m hslot] at htable
      split at htable
      · omega
      · omega
  · rintro (h | h | h)
    · exact .inl h
    · have hslot : (bootMemory m).HasTable (f - 0x1100) := (bootMemory_hasTable m _).mpr (by omega)
      refine .inr ⟨f - 0x1100, hslot, ?_⟩
      rw [bootMemory_table m hslot, if_pos (by omega)]
      omega
    · have hslot : (bootMemory m).HasTable (768 + (f - 0x1400)) :=
        (bootMemory_hasTable m _).mpr (by omega)
      refine .inr ⟨768 + (f - 0x1400), hslot, ?_⟩
      rw [bootMemory_table m hslot, if_neg (by omega)]
      omega

/-- The table that a fitting map gives is sound, and `base_pd` has room. -/
theorem Prepared.sound (h : Prepared regions s u) (hboot : AtBoot s) (hmap : UsableMap regions)
    (hfit : TablesFit regions) : Sound u ∧ u.ClearsApart 1 6 := by
  obtain ⟨m, hm⟩ := hboot.frames
  have htables : ∀ f, u.frames.IsTable f ↔ BootTable f := by
    intro f
    rw [h.tables, hm, bootMemory_isTable]
  have hentry : ∀ i, u.Free i → ∃ r x, pageAt regions i = some (r, x) ∧ r.base % 4096 = 0 ∧
      u.addr i = r.base + x * 4096 ∧ r.base / 4096 + x < windowFrames ∧
      ¬ BootTable (r.base / 4096 + x) ∧
      (i = 32 → ∀ k < 4, ¬ BootTable (r.base / 4096 + x + k)) := by
    intro i hi
    obtain ⟨hnot, r, x, hpage, haddr⟩ := h.free i hi
    obtain ⟨haligned, hlt, hnotTable, hbasePd⟩ := hfit i hi.1 hnot r x hpage
    refine ⟨r, x, hpage, haligned, haddr.trans (u32_of_lt ?_), hlt, hnotTable, hbasePd⟩
    unfold windowFrames at hlt
    omega
  refine ⟨⟨h.paged, ?_, ?_⟩, ?_⟩
  · intro i hi
    obtain ⟨r, x, _, haligned, haddr, hlt, hnotTable, _⟩ := hentry i hi
    have hframe : u.addr i / 4096 = r.base / 4096 + x := by omega
    refine ⟨by omega, hframe ▸ hlt, ?_⟩
    rw [hframe, htables]
    exact hnotTable
  · intro i j hi hj heq
    obtain ⟨r, x, hpage, haligned, haddr, _⟩ := hentry i hi
    obtain ⟨r', x', hpage', haligned', haddr', _⟩ := hentry j hj
    by_contra hne
    apply frame_ne hmap.disjoint hpage hpage' hne haligned haligned'
    omega
  · intro _
    refine ⟨by decide, ?_⟩
    intro j hj f hle hlt
    obtain ⟨r, x, _, haligned, haddr, _, _, hbasePd⟩ := hentry j (firstFree_eq_some hj)
    have hframe : u.addr j / 4096 = r.base / 4096 + x := by omega
    rw [htables, show f = r.base / 4096 + x + (f - u.addr j / 4096) by omega]
    exact hbasePd (h.firstFree hj) _ (by omega)

/-- With `F_ASSERT` the loop of `palloc_kern` does not return without its frames. -/
theorem pallocKernLoop_asserted {flags n i r : Nat} (hflags : fAssert flags = true)
    {res : Option Nat} (hrun : pallocKernLoop flags n i r u = .ok (res, s')) : res ≠ none := by
  induction n generalizing i r u with
  | zero =>
      cases hrun
      exact Option.some_ne_none _
  | succ n ih =>
      obtain ⟨paddr, mid, _, hrest⟩ := Program.bind_eq_ok hrun
      split at hrest
      · rw [noFrame, if_pos hflags] at hrest
        cases hrest
      · obtain ⟨_, mid', _, hloop⟩ := Program.bind_eq_ok hrest
        exact ih hloop

/-- `base_pd` in a sound state. -/
theorem Sound.setupBasePd (h : Sound u) (hclear : u.ClearsApart 1 6)
    (hrun : setupBasePd u = .ok ((), s')) : Kept heap u s' := by
  obtain ⟨basePd, w, hkern, hrest⟩ := Program.bind_eq_ok hrun
  obtain ⟨_, w', hassign, hmemcpy⟩ := Program.bind_eq_ok hrest
  have hkept : Kept heap u w := h.pallocKern hclear hkern
  have hframes : w'.frames = w.frames ∧ w'.physicalPageEntries = w.physicalPageEntries := by
    cases hassign
    exact ⟨rfl, rfl⟩
  have hassigned : Kept heap u w' := hkept.trans (hkept.sound.kept hframes.1 hframes.2)
  obtain ⟨j, hj, hbasePd⟩ : ∃ j, Paging.firstFree u.physicalPageEntries = some j ∧
      basePd = kptov (u.addr j) := by
    obtain ⟨res, mid, hloop, hrest⟩ := Program.bind_eq_ok hkern
    have hnone : res ≠ none := pallocKernLoop_asserted (by decide) hloop
    obtain ⟨x, hx⟩ := Option.ne_none_iff_exists'.mp hnone
    have hres := (h.pallocKernLoop hloop : Kept heap _ _ ∧ _).2 x hx
    rw [if_pos (by decide)] at hres
    rw [hx] at hrest
    obtain ⟨_, mid', _, hpure⟩ := Program.bind_eq_ok hrest
    cases hpure
    exact hres
  have husable := h.usable j (firstFree_eq_some hj)
  rw [hbasePd] at hmemcpy
  refine hassigned.trans (hassigned.sound.memcpy husable.kernelPage_le (u32_lt _) ?_ hmemcpy)
  intro k hk f hf hpage
  rw [hassigned.tables]
  exact hclear.clearable (by decide) hj husable (by unfold PGSIZE; omega) k hk f hf hpage

end Setup

/-! ## Runs -/

/-- No call clears or maps over a page table: the memory map fits, what `F_ZERO` clears in
`palloc_kern` contains no table, and `palloc_heap` maps pages below the kernel's window and
clears nothing. -/
def Call.Apart (k : PagingRun) : Call → Prop
  | .setupAvailablePages regions => TablesFit regions
  | .pallocKern numPages flags => k.state.ClearsApart numPages flags
  | .pallocHeap numPages memPool flags =>
      (fZero flags = true → numPages = 0) ∧ (0 < numPages → k.state.HeapFits numPages memPool)
  | _ => True

/-- The frames of the first `n` free entries are the `n` frames from the first one on. -/
def FramesConsecutive (s : PagingState) (n : Nat) : Prop :=
  ∀ j, firstFree s.physicalPageEntries = some j → ∀ k < n,
    ∃ i ∈ s.freeEntries.take n, s.addr i / 4096 = s.addr j / 4096 + k

/-- The accesses of a call to `kernel_pool` stay in its three frames: they follow one another, and
a round of `palloc_heap`, which links the entry before the index, finds it in `virtual_pages`. -/
def Call.InPool (k : PagingRun) : Call → Prop
  | .initKernelPool => FramesConsecutive k.state poolPages
  | .pallocHeap numPages _ _ => 0 < numPages → 1 ≤ k.state.index k.state.kernelPool ∧
      k.state.index k.state.kernelPool + min numPages k.state.freeEntries.length ≤ 512
  | _ => True

/-- A call that neither clears, maps over nor writes behind the pool into a page table. -/
def Call.KeepsTables (k : PagingRun) (c : Call) : Prop :=
  c.Apart k ∧ c.InPool k

section Runs

variable {k k' : PagingRun} {c : Call} {s s' : PagingState}

/-- `setupAvailablePages` with a map that fits. -/
theorem AtBoot.setup (h : AtBoot s) {regions : List MemoryMapEntry} (hmap : UsableMap regions)
    (hfit : TablesFit regions) (hrun : setupAvailablePages regions s = .ok ((), s')) :
    Sound s' ∧ ∀ heap, Changes heap s.frames s'.frames := by
  obtain ⟨u, heq, hprepared⟩ := h.prepared regions
  obtain ⟨hsound, hclear⟩ := hprepared.sound h hmap hfit
  have hkept : ∀ heap, Kept heap u s' := fun heap => hsound.setupBasePd hclear (heq ▸ hrun)
  exact ⟨(hkept fun _ => False).sound,
    fun heap => (hprepared.changes heap).trans (hkept heap).changes⟩

theorem Sound.getNextFree (h : Sound s) {heap : Nat → Prop} {p : Nat}
    (hrun : getNextFreePhysicalPage s = .ok (p, s')) : Kept heap s s' := by
  cases hfree : firstFree s.physicalPageEntries with
  | none =>
      rw [getNextFreePhysicalPage_none hfree] at hrun
      cases hrun
      exact h.kept rfl rfl
  | some i =>
      rw [getNextFreePhysicalPage_run hfree] at hrun
      cases hrun
      exact h.kept_take (firstFree_eq_some hfree)

theorem Sound.pallocHeap_apart (h : Sound s) {numPages : Int} {memPool flags r : Nat}
    (hzero : fZero flags = true → numPages = 0)
    (hfits : 0 < numPages → s.HeapFits numPages memPool)
    (hrun : Paging.pallocHeap numPages memPool flags s = .ok (r, s')) :
    Grown (s.HeapPages numPages memPool) s s' := by
  by_cases hflag : fZero flags = true
  · obtain rfl := hzero hflag
    have hnothing : Paging.pallocHeap 0 memPool flags s = .ok (0, s) := by
      have hempty : zeroPages flags 0 0 s = .ok ((), s) := by
        unfold zeroPages
        rw [if_pos hflag]
        rfl
      rw [Paging.pallocHeap, show (0 : Int).toNat = 0 by decide, Paging.pallocHeapLoop,
        Program.bind_run_of_ok (Program.pure_run _)]
      dsimp only
      rw [Program.bind_run_of_ok hempty, Program.pure_run]
    rw [hnothing] at hrun
    cases hrun
    exact (h.kept rfl rfl).toGrown
  · exact h.pallocHeap (by simpa using hflag) hfits hrun

/-- A later call that keeps apart from the tables. -/
theorem PagingRun.Step.sound (h : k.Step c k') (hc : ∀ regions, c ≠ .setupAvailablePages regions)
    (hapart : c.Apart k) (hsound : Sound k.state) : Sound k'.state := by
  have hrun := h.returns
  cases c with
  | setupAvailablePages regions => exact absurd rfl (hc regions)
  | clearIdentityPages => exact (hsound.clearIdentityPages hrun).1
  | initKernelPool =>
      have hkept : Kept (fun _ => False) k.state k'.state := hsound.initKernelPool hrun
      exact hkept.sound
  | initKernelHeap => exact (hsound.initHeapPage hrun).sound
  | getNextFreePhysicalPage =>
      obtain ⟨p, mid, hnext, hpure⟩ := Program.bind_eq_ok hrun
      cases hpure
      exact (hsound.getNextFree hnext : Kept (fun _ => False) _ _).sound
  | pallocKern numPages flags =>
      obtain ⟨r, mid, hkern, hpure⟩ := Program.bind_eq_ok hrun
      cases hpure
      exact (hsound.pallocKern hapart hkern : Kept (fun _ => False) _ _).sound
  | pallocHeap numPages memPool flags =>
      obtain ⟨r, mid, hheap, hpure⟩ := Program.bind_eq_ok hrun
      cases hpure
      exact (hsound.pallocHeap_apart hapart.1 hapart.2 hheap).sound

/-- Along a run that keeps apart from the tables the state is sound. -/
theorem reach_sound (run : pagingMachine.Reach (fun k c => c.Apart k) k) :
    k.Booted ∨ k.stage ≠ .booted ∧ Sound k.state := by
  induction run with
  | start h => exact .inl h
  | @step k k' c _ ok h ih =>
      right
      rcases h.setup_or_later with ⟨regions, rfl, hmap, hbooted, hnext, _⟩ | ⟨hc, hlater, hnext, _⟩
      · rcases ih with ⟨_, _, hboot⟩ | ⟨hnot, _⟩
        · exact ⟨by simp [hnext], (hboot.setup hmap ok h.returns).1⟩
        · exact absurd hbooted hnot
      · rcases ih with ⟨hbooted, _⟩ | ⟨_, hsound⟩
        · exact absurd hbooted hlater
        · exact ⟨hnext, h.sound hc ok hsound⟩

end Runs

/-- Every page table is mapped where the kernel looks for it, and no table serves two of the
entries that `map_page` filled in. -/
structure TablesReachable (s : PagingState) : Prop where
  reachable : ∀ slot, s.frames.HasTable slot →
    frameOf s.frames (pageOf (kptov (s.frames.table slot * 4096))) = some (s.frames.table slot)
  distinct : ∀ slot ∈ s.installed, ∀ slot' ∈ s.installed, s.frames.HasTable slot →
    s.frames.HasTable slot' → s.frames.table slot = s.frames.table slot' → slot = slot'

theorem tables_reachable_of_paged {s : PagingState} (h : Paged s.frames) : TablesReachable s :=
  ⟨fun slot hslot => h.tables.reachable slot hslot,
    fun slot _ slot' _ hslot hslot' heq => h.distinct slot slot' hslot hslot' heq⟩

/-- The page tables stay reachable in a run of calls that keep them. -/
theorem tables_stay_reachable (k : PagingRun)
    (run : pagingMachine.Reach (fun k c => c.KeepsTables k) k) : TablesReachable k.state := by
  rcases reach_sound (run.mono fun _ _ h => h.1) with ⟨_, _, hboot⟩ | ⟨_, hsound⟩
  · obtain ⟨m, hm⟩ := hboot.frames
    exact tables_reachable_of_paged (hm ▸ paged_bootMemory m)
  · exact tables_reachable_of_paged hsound.paged

theorem tablesFit_plain : TablesFit plainMap := by
  intro n _ hnot r x hpage
  obtain ⟨hbase, rfl, hlt⟩ := pageAt_plain hpage
  unfold BootTable directoryFrame windowFrames
  rw [hbase]
  refine ⟨by decide, by omega, by omega, ?_⟩
  intro hfirst k hk
  omega

theorem tables_reachable_after_plain_setup : ∃ k : PagingRun, k.state.returned = [0x120000] ∧
    TablesReachable k.state := by
  obtain ⟨_, s', _, hrun, hreturned⟩ := setup_plain
  exact ⟨⟨s', .available, plainMap⟩, hreturned,
    tables_stay_reachable _ (reach_setup usableMap_plain ⟨tablesFit_plain, trivial⟩ hrun)⟩

/-- The first page that is not reserved is the table of the second 4 MiB of the window. -/
def tablePageMap : List MemoryMapEntry := [⟨0x100000, 0x20000⟩, ⟨0x1401000, 0x1000⟩]

/-- `F_ZERO` and the copy of the directory overwrite four page tables. -/
theorem tables_not_reachable_for_every_map :
    ¬ ∀ k, pagingMachine.Reachable k → TablesReachable k.state := by
  intro h
  have hmap : UsableMap tablePageMap := ⟨by decide, by decide, by decide⟩
  have hfits : BasePdFits 0x1401 := by
    refine ⟨by decide, ?_⟩
    intro f hf
    unfold Cleared at hf
    unfold windowTable
    omega
  obtain ⟨u, s', hprepared, hrun, hsame, hwords, _, _⟩ :=
    atBoot_blankBoot.setup_run tablePageMap ⟨0x1401000, 0x1000⟩ 0 (by decide) (by decide) hfits
  have hreach := h ⟨s', .available, tablePageMap⟩ (reach_setup hmap trivial hrun)
  have hboot : ∀ f i, i < 1024 → blankBoot.frames f i = bootMemory (fun _ _ => 0) f i :=
    fun _ _ _ => by simp only [blankBoot]
  -- mapping `base_pd` changes the table 0x1405 only
  have hmapped : ∀ f, f ≠ 0x1405 → (u.basePdMapped 32 0x1401).frames f = u.frames f :=
    fun f hf => hprepared.paged.basePdMapped_other (by decide) hf
  have hdirectory : ∀ i < 1024,
      s'.frames directoryFrame i = bootMemory (fun _ _ => 0) directoryFrame i := by
    intro i hi
    rw [hsame directoryFrame (by unfold Cleared directoryFrame; omega), hmapped _ (by decide),
      hprepared.directory, hboot _ _ hi]
  have hslot : s'.frames.HasTable 0 ∧ s'.frames.table 0 = 0x1100 := by
    unfold Frames.HasTable Frames.table
    rw [hdirectory 0 (by decide), bootMemory_directory _ (by decide)]
    decide
  have hpage := hreach.reachable 0 hslot.1
  rw [hslot.2] at hpage
  -- the word that should lead to 0x1100 is a copy of a word of frame 9
  have hword : s'.frames 0x1404 0x100 = 0 := by
    have hcopy := hwords (3 * 1024 + 0x100) (by decide)
    have hnine : ¬ blankBoot.frames.IsTable 9 := by
      rw [blankBoot, bootMemory_isTable]
      decide
    rw [hmapped _ (by decide)] at hcopy
    have hzero : u.frames 9 0x100 = 0 := by
      rw [hprepared.data 9 hnine, hboot _ _ (by decide), bootMemory_apply _ _ _ (by decide)]
      decide
    exact hcopy.trans hzero
  have hbase : s'.frames directoryFrame (slotOf (pageOf (kptov (0x1100 * 4096))))
      = 0x1404 * 4096 + 3 := by
    rw [hdirectory _ (by decide), bootMemory_directory _ (by decide)]
    decide
  have hnone : walk s'.frames (pageOf (kptov (0x1100 * 4096))) = none := by
    unfold walk
    dsimp only
    rw [hbase, show baseAddr (0x1404 * 4096 + 3) = 0x1404 by decide,
      show indexOf (pageOf (kptov (0x1100 * 4096))) = 0x100 by decide, hword,
      show present 0 = false by decide, Bool.and_false]
    exact if_neg Bool.false_ne_true
  rw [frameOf, hnone] at hpage
  cases hpage

/-! ## The console -/

/-- The physical address of a virtual one. -/
def translate (m : Frames) (vaddr : Nat) : Option Nat :=
  (frameOf m (pageOf vaddr)).map fun frame => frame * 4096 + vaddr % 4096

/-- `VIDEO_ADDRESS` -/
def VIDEO_ADDRESS : Nat := 0xb8000

/-- The addresses of the console translate to the memory of the screen. -/
def VideoMapped (m : Frames) : Prop :=
  ∀ vaddr, VIDEO_ADDRESS ≤ vaddr → vaddr ≤ VIDEO_ADDRESS + 3999 → translate m vaddr = some vaddr

section Console

variable {k k' : PagingRun} {c : Call} {s s' : PagingState}

theorem videoMapped_iff (m : Frames) : VideoMapped m ↔ frameOf m 0xb8 = some 0xb8 := by
  have hpage : ∀ vaddr, VIDEO_ADDRESS ≤ vaddr → vaddr ≤ VIDEO_ADDRESS + 3999 →
      pageOf vaddr = 0xb8 ∧ 0xb8 * 4096 + vaddr % 4096 = vaddr := by
    intro vaddr hlow hhigh
    unfold VIDEO_ADDRESS at hlow hhigh
    unfold pageOf
    omega
  constructor
  · intro h
    have hfirst := h VIDEO_ADDRESS (Nat.le_refl _) (by decide)
    rw [translate, (hpage _ (Nat.le_refl _) (by decide)).1] at hfirst
    obtain ⟨frame, hframe, heq⟩ := Option.map_eq_some_iff.mp hfirst
    rw [hframe]
    unfold VIDEO_ADDRESS at heq
    congr 1
    omega
  · intro h vaddr hlow hhigh
    obtain ⟨hpage, heq⟩ := hpage vaddr hlow hhigh
    rw [translate, hpage, h, Option.map_some, heq]

/-- The boot tables map the screen to itself. -/
theorem videoMapped_bootMemory (m : Frames) : frameOf (bootMemory m) 0xb8 = some 0xb8 := by
  have hpde : bootMemory m directoryFrame (slotOf 0xb8) = 0x1100 * 4096 + 3 := by
    rw [bootMemory_directory m (by decide)]
    decide
  have hpte : bootMemory m 0x1100 (indexOf 0xb8) = 0xb8 * 4096 + 3 := by
    rw [bootMemory_apply _ _ _ (by decide), if_neg (by decide), if_pos (by decide)]
    decide
  have htable : baseAddr (bootMemory m directoryFrame (slotOf 0xb8)) = 0x1100 := by
    rw [hpde]
    decide
  rw [frameOf, walk_of_present (by rw [hpde]; decide) htable hpte (by decide), Option.map_some]
  exact congrArg some (by decide : baseAddr (0xb8 * 4096 + 3) = 0xb8)

/-- A call that keeps apart from the tables and is not `clear_identity_pages`. -/
def Call.KeepsIdentity (k : PagingRun) (c : Call) : Prop :=
  c.Apart k ∧ c ≠ .clearIdentityPages

/-- Before `clear_identity_pages` only `palloc_kern` and `get_next_free_physical_page` are
called. -/
theorem PagingRun.Step.available (h : k.Step c k') (hstage : k.stage = .available)
    (hidentity : c.KeepsIdentity k) (hsound : Sound k.state) :
    k'.stage = .available ∧ Kept (fun _ => False) k.state k'.state := by
  have hrun := h.returns
  have hnext := h.stage
  rw [hstage] at hnext
  cases c with
  | setupAvailablePages regions => cases hnext
  | clearIdentityPages => exact absurd rfl hidentity.2
  | initKernelPool => cases hnext
  | initKernelHeap => cases hnext
  | getNextFreePhysicalPage =>
      obtain ⟨p, mid, hfree, hpure⟩ := Program.bind_eq_ok hrun
      cases hpure
      exact ⟨(Option.some.inj hnext).symm, hsound.getNextFree hfree⟩
  | pallocKern numPages flags =>
      obtain ⟨r, mid, hkern, hpure⟩ := Program.bind_eq_ok hrun
      cases hpure
      exact ⟨(Option.some.inj hnext).symm, hsound.pallocKern hidentity.1 hkern⟩
  | pallocHeap numPages memPool flags => cases hnext

/-- The console stays mapped as long as the identity pages are not cleared. -/
theorem console_mapped_until_identity_cleared (k : PagingRun)
    (run : pagingMachine.Reach (fun k c => c.KeepsIdentity k) k) : VideoMapped k.state.frames := by
  have hinv : k.Booted ∨ k.stage = .available ∧ Sound k.state ∧
      frameOf k.state.frames 0xb8 = some 0xb8 := by
    induction run with
    | start h => exact .inl h
    | @step k k' c _ ok h ih =>
        right
        rcases ih with ⟨hbooted, _, hboot⟩ | ⟨havailable, hsound, hvideo⟩
        · rcases h.setup_or_later with ⟨regions, rfl, hmap, _, hnext, _⟩ | ⟨_, hlater, _⟩
          · obtain ⟨m, hm⟩ := hboot.frames
            obtain ⟨hsound, hchanges⟩ := hboot.setup hmap ok.1 h.returns
            refine ⟨hnext, hsound, ?_⟩
            refine (hchanges fun _ => False).frameOf (hm ▸ paged_bootMemory m) (by decide) id ?_
            rw [hm]
            exact videoMapped_bootMemory m
          · exact absurd hbooted hlater
        · obtain ⟨hnext, hkept⟩ := h.available havailable ok hsound
          exact ⟨hnext, hkept.sound,
            hkept.changes.frameOf hsound.paged (by decide) id hvideo⟩
  rw [videoMapped_iff]
  rcases hinv with ⟨_, _, hboot⟩ | ⟨_, _, hvideo⟩
  · obtain ⟨m, hm⟩ := hboot.frames
    rw [hm]
    exact videoMapped_bootMemory m
  · exact hvideo

theorem console_mapped_after_plain_setup : ∃ k : PagingRun, k.stage = .available ∧
    VideoMapped k.state.frames := by
  obtain ⟨_, s', _, hrun, _⟩ := setup_plain
  exact ⟨⟨s', .available, plainMap⟩, rfl, console_mapped_until_identity_cleared _
    (reach_setup usableMap_plain ⟨tablesFit_plain, Call.noConfusion⟩ hrun)⟩

/-- `clear_identity_pages` unmaps the screen. -/
theorem console_not_mapped_after_paging_init :
    ¬ ∀ k, pagingMachine.Reachable k → VideoMapped k.state.frames := by
  intro h
  obtain ⟨_, s', _, hrun, _⟩ := setup_plain
  have hsound : Sound s' := (atBoot_blankBoot.setup usableMap_plain tablesFit_plain hrun).1
  obtain ⟨s'', hclear, _⟩ := hsound.paged.clearIdentityLoop (show 0 + 6 ≤ 768 by decide)
  have hreach : pagingMachine.Reachable ⟨s'', .cleared, plainMap⟩ := by
    refine .step (reach_setup usableMap_plain trivial hrun) trivial
      (a := .clearIdentityPages) ⟨?_, rfl, hclear, rfl⟩
    intro regions heq
    cases heq
  have hvideo := (videoMapped_iff _).mp (h _ hreach)
  exact (hsound.clearIdentityPages hclear).2 (hasTable_of_frameOf (by decide) hvideo)

end Console

end NickOS3.Paging
