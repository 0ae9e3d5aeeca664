import NickOS3.Paging.Reachability

/-!
# Frames in ascending order

With a memory map whose regions ascend, every frame lies above the frames handed out before it, and
so does the page that `palloc_kern` maps it at.
-/

namespace NickOS3.Paging

open Foundation Program

/-- The regions ascend, and the pages of the table are aligned, above the page of the first thread
and below 1 GiB, so that `Kptov` does not wrap around. -/
structure AscendingMap (regions : List MemoryMapEntry) : Prop where
  ascending : regions.Pairwise fun r r' => r.base + r.length ≤ r'.base
  pages : MapFits (fun _ r x => r.base % 4096 = 0 ∧ 0x8000 ≤ r.base + x * 4096 ∧
    r.base + x * 4096 < 0x40000000) regions

/-- The free frames ascend in the table. -/
structure Ascending (s : PagingState) : Prop where
  page : ∀ i, s.Free i → s.addr i % 4096 = 0 ∧ 0x8000 ≤ s.addr i ∧ s.addr i < 0x40000000
  lt : ∀ i j, s.Free i → s.Free j → i < j → s.addr i < s.addr j

/-- A page lies below the pages of all free frames. -/
def PagingState.Below (s : PagingState) (page : Nat) : Prop :=
  ∀ i, s.Free i → page < 0xC0000000 + s.addr i

theorem kptov_high {frame : Nat} (h : frame < 0x40000000) : kptov frame = 0xC0000000 + frame := by
  rw [kptov, u32_of_lt (by omega), Nat.add_comm]

section Ascending

variable {regions : List MemoryMapEntry} {s u : PagingState} {pages : List Nat}

/-- Of two entries, the later one names the higher page. -/
theorem pageAt_ascends (hregions : regions.Pairwise fun r r' => r.base + r.length ≤ r'.base)
    {i j x x' : Nat} {r r' : MemoryMapEntry} (h : pageAt regions i = some (r, x))
    (h' : pageAt regions j = some (r', x')) (hlt : i < j) :
    r.base + x * 4096 < r'.base + x' * 4096 := by
  induction regions generalizing i j with
  | nil => cases h
  | cons head rest ih =>
      obtain ⟨hhead, hrest⟩ := List.pairwise_cons.mp hregions
      rw [pageAt] at h h'
      split at h
      · cases h
        split at h'
        · cases h'
          omega
        · rename_i hin _
          have hend := int32_toNat_le (r.length / 4096)
          have hbase := hhead _ (pageAt_mem h').1
          unfold MemoryMapEntry.maxPages at hin
          omega
      · split at h'
        · omega
        · exact ih hrest h h' (by omega)

/-- The table that `setupAvailablePages` fills from an ascending map. -/
theorem Prepared.ascending (h : Prepared regions s u) (hmap : AscendingMap regions) :
    Ascending u := by
  have hinside : ∀ i, u.Free i → ∃ r x, pageAt regions i = some (r, x) ∧
      u.addr i = r.base + x * 4096 ∧ r.base % 4096 = 0 ∧ 0x8000 ≤ r.base + x * 4096 ∧
      r.base + x * 4096 < 0x40000000 := by
    intro i hi
    obtain ⟨hnot, r, x, hpage, haddr⟩ := h.free i hi
    obtain ⟨haligned, hlow, hhigh⟩ := hmap.pages i hi.1 hnot r x hpage
    exact ⟨r, x, hpage, haddr.trans (u32_of_lt (by omega)), haligned, hlow, hhigh⟩
  constructor
  · intro i hi
    obtain ⟨r, x, -, haddr, haligned, hlow, hhigh⟩ := hinside i hi
    rw [haddr]
    exact ⟨by omega, hlow, hhigh⟩
  · intro i j hi hj hlt
    obtain ⟨r, x, hpage, haddr, -⟩ := hinside i hi
    obtain ⟨r', x', hpage', haddr', -⟩ := hinside j hj
    rw [haddr, haddr']
    exact pageAt_ascends hmap.ascending hpage hpage' hlt

/-- The table ascends, and all of `pages` lie below its free frames. -/
structure Ascended (pages : List Nat) (s : PagingState) : Prop where
  ascending : Ascending s
  below : ∀ page ∈ pages, s.Below page

theorem Ascended.of_free (h : Ascended pages s) (hfree : ∀ i, u.Free i → s.Free i)
    (haddr : ∀ i, u.addr i = s.addr i) : Ascended pages u := by
  refine ⟨⟨fun i hi => ?_, fun i j hi hj hlt => ?_⟩, fun page hpage i hi => ?_⟩
  · rw [haddr]
    exact h.ascending.page i (hfree i hi)
  · rw [haddr, haddr]
    exact h.ascending.lt i j (hfree i hi) (hfree j hj) hlt
  · rw [haddr]
    exact h.below page hpage i (hfree i hi)

theorem Ascended.take (h : Ascended pages s) (i : Nat) : Ascended pages (s.take i) :=
  h.of_free (fun j hj => ((take_free j).mp hj).1) take_addr

/-- The first free frame is taken: its page joins the pages below. -/
theorem Ascended.take_first (h : Ascended pages s) {i : Nat}
    (hi : firstFree s.physicalPageEntries = some i) :
    Ascended (kptov (s.addr i) :: pages) (s.take i) := by
  have hfree := firstFree_eq_some hi
  refine ⟨(h.take i).ascending, fun page hpage => ?_⟩
  rcases List.mem_cons.mp hpage with heq | hpage
  · intro j hj
    obtain ⟨hj, hne⟩ := (take_free j).mp hj
    have hlt : i < j := Nat.lt_of_le_of_ne (le_of_firstFree hi hj) (Ne.symm hne)
    have haddr := h.ascending.lt i j hfree hj hlt
    rw [heq, take_addr, kptov_high (h.ascending.page i hfree).2.2]
    omega
  · exact (h.take i).below page hpage

theorem frameStable_ascended (pages : List Nat) : FrameStable (Ascended pages) where
  set _ _ _ _ hs := hs.of_free (fun _ => id) fun _ => rfl
  take _ i _ hs := hs.take i
  installed _ _ hs := hs.of_free (fun _ => id) fun _ => rfl
  globals s s' _ hentries _ _ hs := by
    refine hs.of_free (fun i hi => ?_) fun i => ?_
    · unfold PagingState.Free at hi ⊢
      rwa [← hentries]
    · rw [PagingState.addr, PagingState.addr, hentries]

end Ascending

section PallocKern

variable {I : PagingState → Prop} {s s' : PagingState} {flags page : Nat}

/-- `palloc_kern(1, flags | F_ASSERT)` returns the page of the first free frame. -/
theorem pallocKern_one (hassert : fAssert flags = true)
    (hrun : pallocKern 1 flags s = .ok (page, s')) :
    ∃ i, firstFree s.physicalPageEntries = some i ∧ page = kptov (s.addr i) ∧
      ∀ {I : PagingState → Prop}, Stable I → I (s.take i) → I s' := by
  rw [pallocKern, show (1 : Int).toNat = 1 by decide] at hrun
  obtain ⟨res, u, hloop, hzero⟩ := bind_eq_ok hrun
  rw [pallocKernLoop] at hloop
  obtain ⟨paddr, mid, hget, hrest⟩ := bind_eq_ok hloop
  -- without a frame, `F_ASSERT` makes it a panic
  have hpanics : (noFrame flags : PageM (Option Nat)) = throw .panic := if_pos hassert
  split at hrest
  · rw [hpanics] at hrest
    cases hrest
  · rename_i hne
    obtain ⟨_, mapped, hmap, hrest⟩ := bind_eq_ok hrest
    rw [pallocKernLoop, if_pos rfl, pure_run] at hrest
    obtain ⟨rfl, rfl⟩ := Prod.mk.inj (Except.ok.inj hrest)
    obtain ⟨_, zeroed, hclear, hpure⟩ := bind_eq_ok hzero
    obtain ⟨hpage, rfl⟩ := Prod.mk.inj (Except.ok.inj hpure)
    unfold getNextFreePhysicalPage at hget
    split at hget
    · rename_i i hi
      cases hget
      refine ⟨i, hi, hpage.symm, fun hI htake => ?_⟩
      have hmapped := hI.mapPage _ _ _ _ htake _ _ hmap
      exact hI.zeroPages _ _ _ _ hmapped _ _ hclear
    · cases hget
      exact absurd rfl hne

/-- The page lies above all pages so far, and below those of the frames that are left. -/
theorem Ascended.pallocKern {pages : List Nat} (h : Ascended pages s)
    (hassert : fAssert flags = true) (hrun : pallocKern 1 flags s = .ok (page, s')) :
    Ascended (page :: pages) s' ∧ page % 4096 = 0 ∧ 0xC0008000 ≤ page ∧ page < 4294967296 ∧
      ∀ old ∈ pages, old < page := by
  obtain ⟨i, hi, hpage, hkeeps⟩ := pallocKern_one hassert hrun
  have hfree := firstFree_eq_some hi
  obtain ⟨haligned, hlow, hhigh⟩ := h.ascending.page i hfree
  have htaken := hkeeps (frameStable_ascended _).toStable (h.take_first hi)
  rw [← hpage] at htaken
  rw [kptov_high hhigh] at hpage
  refine ⟨htaken, by omega, by omega, by omega, fun old hold => ?_⟩
  rw [hpage]
  exact h.below old hold i hfree

end PallocKern

/-! ## A page behind `base_pd` -/

theorem ascendingMap_plain : AscendingMap plainMap := by
  refine ⟨List.pairwise_singleton _ _, ?_⟩
  intro n _ _ r x hpage
  obtain ⟨hbase, rfl, hlt⟩ := pageAt_plain hpage
  rw [hbase]
  omega

/-- Behind `setupAvailablePages`, `palloc_kern` with `F_ZERO` has the page behind `base_pd`. -/
theorem pallocKern_plain : ∃ s s', setupAvailablePages plainMap blankBoot = .ok ((), s) ∧
    pallocKern 1 0x87 s = .ok (0xC0121000, s') := by
  obtain ⟨u, s, hprepared, hrun, -, -, -, hentries⟩ :=
    atBoot_blankBoot.setup_run plainMap ⟨0x100000, 0x100000⟩ 32 (by decide) (by decide)
      basePdFits_plain
  have hsound : Sound s := (atBoot_blankBoot.setup usableMap_plain tablesFit_plain hrun).1
  have hfree : ∀ i, s.Free i ↔ u.Free i ∧ i ≠ 32 := by
    intro i
    rw [← take_free]
    unfold PagingState.Free
    rw [hentries]
  have hnext : u.Free 33 := hprepared.free_of_page (by decide) (by decide)
    (show pageAt plainMap 33 = some (⟨0x100000, 0x100000⟩, 33) by decide)
  have hfirst : firstFree s.physicalPageEntries = some 33 := by
    refine firstFree_of_least ((hfree 33).mpr ⟨hnext, by decide⟩) fun j hj => ?_
    obtain ⟨hj, hne⟩ := (hfree j).mp hj
    have hleast := hprepared.least hj
    omega
  have haddr : s.addr 33 = 0x121 * 4096 := by
    obtain ⟨_, r, x, hpage, haddr⟩ := hprepared.free 33 hnext
    obtain ⟨hbase, rfl, _⟩ := pageAt_plain hpage
    rw [PagingState.addr, hentries, ← PagingState.addr, take_addr, haddr, hbase]
    decide
  obtain ⟨hget, hmap, hkept⟩ := hsound.pallocKern_round (fun _ => False) 0x87 hfirst
  rw [haddr] at hget hmap hkept
  generalize (s.take 33).mapped (tablePage (0x121 * 4096 / 4096)) (0x121 * 4096) 0x87 = v
    at hmap hkept
  have hfits : BasePdFits 0x121 := by
    refine ⟨by decide, fun f hf => ?_⟩
    unfold Cleared at hf
    unfold windowTable
    omega
  obtain ⟨n, hn⟩ : ∃ n, n = 4096 := ⟨_, rfl⟩
  obtain ⟨m, hmemset, -⟩ := memset_run (c := 0) (hkept.sound.paged.writable hfits hn)
  have hpage : kptov (0x121 * 4096) = 0xC0121000 := by decide
  have hloop : pallocKernLoop 0x87 1 0 0 s = .ok (some (kptov (0x121 * 4096)), v) := by
    rw [pallocKernLoop, bind_run_of_ok hget, if_neg (by decide), bind_run_of_ok hmap,
      pallocKernLoop, if_pos rfl, pure_run]
  have hzero : zeroPages 0x87 (kptov (0x121 * 4096)) 1 v = .ok ((), { v with frames := m }) := by
    unfold zeroPages
    rw [if_pos (by decide), show ofInt (1 * PGSIZE) = n from hn ▸ by decide]
    exact hmemset
  refine ⟨s, { v with frames := m }, hrun, ?_⟩
  rw [pallocKern, show (1 : Int).toNat = 1 by decide, bind_run_of_ok hloop]
  dsimp only
  rw [bind_run_of_ok hzero, pure_run, hpage]

end NickOS3.Paging
