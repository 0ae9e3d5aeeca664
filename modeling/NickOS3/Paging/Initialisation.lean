import NickOS3.Paging.Contiguity
import NickOS3.Paging.Mapping

/-!
# What `paging_init` makes of the memory it finds

`init_pool` maps three frames for the pool without clearing them, and `init_heap_page` panics
unless the word of `next_free_page_index` that it finds there is 0. The pool is then read and
written as one region from the page of its first frame on.
-/

namespace NickOS3.Paging

open Foundation Program

/-! ## What the heap's first page holds -/

/-- The header `initialiseHeap` writes: one free segment as long as the page less the header. -/
structure OneSegment (m : Frames) (frame : Nat) : Prop where
  memoryLength : m frame 0 = PGSIZE - 24
  links : ∀ k, 1 ≤ k → k ≤ 4 → m frame k = 0
  free : m frame 5 = 1

section Stores

variable {s : PagingState} {m m' : Frames} {frame page : Nat}

/-- Where only a frame differs that is no page table, all translations are the same. -/
theorem walk_of_data (hframe : ¬ m.IsTable frame) (hdiff : ∀ f, f ≠ frame → m' f = m f)
    (hpage : page < 1048576) : walk m' page = walk m page := by
  have hdirectory : m' directoryFrame = m directoryFrame :=
    hdiff _ fun heq => hframe (.inl heq.symm)
  refine walk_congr (by rw [hdirectory]) fun hpresent => ?_
  rw [hdiff]
  rintro heq
  exact hframe (.inr ⟨_, ⟨slotOf_lt hpage, hpresent⟩, heq⟩)

theorem isTable_of_data (hframe : ¬ m.IsTable frame) (hdiff : ∀ f, f ≠ frame → m' f = m f)
    (f : Nat) : m'.IsTable f ↔ m.IsTable f :=
  isTable_congr (hdiff _ fun heq => hframe (.inl heq.symm))

theorem initialiseHeap_segment (hframe : ¬ s.frames.IsTable frame)
    (hpage : frameOf s.frames 0 = some frame) :
    ∃ m', initialiseHeap 0 PGSIZE s = .ok ((), { s with frames := m' }) ∧
      (∀ f, f ≠ frame → m' f = s.frames f) ∧ OneSegment m' frame := by
  have hstore : ∀ m v k w, (∀ f, f ≠ frame → m f = s.frames f) → pageOf v = 0 → wordOf v = k →
      store v w { s with frames := m } = .ok ((), { s with frames := m.set frame k w }) ∧
        ∀ f, f ≠ frame → m.set frame k w f = s.frames f := by
    intro m v k w hm hv hk
    have hreach : frameOf m (pageOf v) = some frame := by
      rw [hv, frameOf, walk_of_data hframe hm (by decide)]
      exact hpage
    refine ⟨?_, fun f hf => (Function.update_of_ne hf _ _).trans (hm f hf)⟩
    rw [store, modify_run hreach, hk]
    rfl
  obtain ⟨h₁, hm₁⟩ := hstore s.frames 0 0 (u32 (PGSIZE + 4294967296 - 24)) (fun _ _ => rfl) rfl rfl
  obtain ⟨h₂, hm₂⟩ := hstore _ (u32 (0 + 12)) 3 0 hm₁ (by decide) (by decide)
  obtain ⟨h₃, hm₃⟩ := hstore _ (u32 (0 + 4)) 1 0 hm₂ (by decide) (by decide)
  obtain ⟨h₄, hm₄⟩ := hstore _ (u32 (0 + 16)) 4 0 hm₃ (by decide) (by decide)
  obtain ⟨h₅, hm₅⟩ := hstore _ (u32 (0 + 8)) 2 0 hm₄ (by decide) (by decide)
  obtain ⟨h₆, hm₆⟩ := hstore _ (u32 (0 + 20)) 5 1 hm₅ (by decide) (by decide)
  refine ⟨_, ?_, hm₆, ?_, ?_, ?_⟩
  · rw [initialiseHeap, bind_run_of_ok h₁, bind_run_of_ok h₂, bind_run_of_ok h₃, bind_run_of_ok h₄,
      bind_run_of_ok h₅]
    exact h₆
  · simp [Frames.set_apply, PGSIZE, u32]
  · intro k hlow hhigh
    obtain rfl | rfl | rfl | rfl : k = 1 ∨ k = 2 ∨ k = 3 ∨ k = 4 := by omega
    all_goals simp [Frames.set_apply]
  · exact Frames.set_self ..

end Stores

/-! ## The first free frames -/

/-- The window is mapped, and the free entries start with some that name different usable
frames. -/
structure Supply (s : PagingState) (l rest : List Nat) : Prop where
  paged : Paged s.frames
  entries : s.freeEntries = l ++ rest
  usable : ∀ i ∈ l, s.frames.Usable (s.addr i)
  distinct : ∀ i ∈ l, ∀ j ∈ l, s.addr i = s.addr j → i = j

/-- In a sound state all free entries are of this kind. -/
theorem Sound.supply {s : PagingState} (h : Sound s) {l rest : List Nat}
    (hentries : s.freeEntries = l ++ rest) : Supply s l rest := by
  have hfree : ∀ i ∈ l, s.Free i := by
    intro i hi
    rw [← mem_freeEntries, hentries]
    exact List.mem_append_left _ hi
  exact ⟨h.paged, hentries, fun i hi => h.usable i (hfree i hi),
    fun i hi j hj => h.distinct i j (hfree i hi) (hfree j hj)⟩

/-- Some entries have been allocated. The page tables are as before. -/
structure Draws (s s' : PagingState) (l : List Nat) : Prop where
  entries : ∀ i, s'.physicalPageEntries i =
    if i ∈ l then { s.physicalPageEntries i with type := .allocated } else s.physicalPageEntries i
  hasTable : ∀ slot, s'.frames.HasTable slot ↔ s.frames.HasTable slot
  isTable : ∀ f, s'.frames.IsTable f ↔ s.frames.IsTable f

section Supply

variable {s s' : PagingState} {l rest : List Nat} {i flags : Nat}

theorem Draws.trans {t : PagingState} {l' : List Nat} (h : Draws s t l) (h' : Draws t s' l') :
    Draws s s' (l ++ l') := by
  constructor
  · intro j
    rw [h'.entries, h.entries]
    by_cases hl : j ∈ l
    · by_cases hl' : j ∈ l'
      · simp [hl, hl']
      · simp [hl, hl']
    · by_cases hl' : j ∈ l'
      · simp [hl, hl']
      · simp [hl, hl']
  · exact fun slot => (h'.hasTable slot).trans (h.hasTable slot)
  · exact fun f => (h'.isTable f).trans (h.isTable f)

theorem Draws.addr (h : Draws s s' l) (j : Nat) : s'.addr j = s.addr j := by
  rw [PagingState.addr, PagingState.addr, h.entries]
  split <;> rfl

/-- Neither the pools nor the other variables matter. -/
theorem Supply.congr (h : Supply s l rest) (hframes : s'.frames = s.frames)
    (hentries : s'.physicalPageEntries = s.physicalPageEntries) : Supply s' l rest := by
  have haddr : ∀ i, s'.addr i = s.addr i := by
    intro i
    rw [PagingState.addr, PagingState.addr, hentries]
  constructor
  · rw [hframes]
    exact h.paged
  · rw [← h.entries, PagingState.freeEntries, PagingState.freeEntries, hentries]
  · intro i hi
    rw [hframes, haddr]
    exact h.usable i hi
  · intro i hi j hj heq
    rw [haddr, haddr] at heq
    exact h.distinct i hi j hj heq

theorem Supply.firstFree (h : Supply s (i :: l) rest) :
    firstFree s.physicalPageEntries = some i := by
  rw [firstFree_eq_head, h.entries]
  rfl

/-- What is left when the first entry is drawn. -/
theorem Supply.drawn (h : Supply s (i :: l) rest) (hs : Draws s s' [i]) (hpaged : Paged s'.frames) :
    Supply s' l rest := by
  have hentries : s'.freeEntries = (s.take i).freeEntries := by
    unfold PagingState.freeEntries
    refine List.filter_congr fun j _ => ?_
    rw [hs.entries, PagingState.take]
    by_cases hj : j = i
    · simp [hj]
    · simp [hj]
  have hrest := freeEntries_take h.firstFree
  rw [h.entries, List.cons_append] at hrest
  constructor
  · exact hpaged
  · rw [hentries, ← (List.cons.inj hrest).2]
  · intro j hj
    rw [hs.addr, Frames.Usable, hs.isTable]
    exact h.usable j (List.mem_cons_of_mem _ hj)
  · intro j hj k hk heq
    rw [hs.addr, hs.addr] at heq
    exact h.distinct j (List.mem_cons_of_mem _ hj) k (List.mem_cons_of_mem _ hk) heq

/-- A frame is taken and mapped at its page in the window. -/
theorem Supply.round (h : Supply s (i :: l) rest) (flags : Nat) :
    ∃ s', getNextFreePhysicalPage s = .ok (s.addr i, s.take i) ∧
      mapPage (s.addr i) (kptov (s.addr i)) flags (s.take i) = .ok ((), s') ∧
      Supply s' l rest ∧ Draws s s' [i] := by
  obtain ⟨haligned, hlt, hfresh⟩ := h.usable i List.mem_cons_self
  have hpaged : Paged (s.take i).frames := h.paged
  have hself : s.addr i / 4096 ≠ windowTable (s.addr i / 4096) :=
    (h.usable i List.mem_cons_self).not_windowTable h.paged
  obtain ⟨hchange, htables⟩ : Change (fun _ => False) (s.take i).frames
      ((s.take i).mapped (tablePage (s.addr i / 4096)) (s.addr i) flags).frames ∧ _ :=
    hpaged.change_mapped_window hlt
  have hdraws : Draws s ((s.take i).mapped (tablePage (s.addr i / 4096)) (s.addr i) flags) [i] := by
    constructor
    · intro j
      change Function.update s.physicalPageEntries i _ j = _
      by_cases hj : j = i
      · simp [hj]
      · simp [hj]
    · intro slot
      rw [hpaged.mapped_window hlt, hasTable_set windowTable_ne]
      rfl
    · exact htables
  exact ⟨_, getNextFreePhysicalPage_run h.firstFree, hpaged.mapPage_window haligned hlt hself,
    h.drawn hdraws (hchange.paged hpaged), hdraws⟩

/-- The later rounds of `init_pool`. -/
theorem Supply.initPoolLoop {l' : List Nat} (h : Supply s (l ++ l') rest) (flags i r : Nat) :
    ∃ s', Paging.initPoolLoop flags l.length (i + 1) r s = .ok (r, s') ∧ Supply s' l' rest ∧
      Draws s s' l := by
  induction l generalizing i s with
  | nil =>
      exact ⟨s, rfl, h, fun _ => by simp, fun _ => .rfl, fun _ => .rfl⟩
  | cons j l ih =>
      obtain ⟨t, hnext, hmap, hsupply, hdraws⟩ := h.round flags
      obtain ⟨s', hloop, hsupply', hdraws'⟩ := ih hsupply (i + 1)
      refine ⟨s', ?_, hsupply', hdraws.trans hdraws'⟩
      rw [List.length_cons, Paging.initPoolLoop, bind_run_of_ok hnext, bind_run_of_ok hmap,
        if_neg (Nat.succ_ne_zero i)]
      exact hloop

/-- `init_pool` takes three frames, and the pool starts at the page of the first. -/
theorem Supply.initPool {i₁ i₂ i₃ : Nat} (h : Supply s (i₁ :: i₂ :: i₃ :: l) rest) (flags : Nat) :
    ∃ s', Paging.initPool flags s = .ok (kptov (s.addr i₁), s') ∧ Supply s' l rest ∧
      Draws s s' [i₁, i₂, i₃] := by
  obtain ⟨t, hnext, hmap, hsupply, hdraws⟩ := h.round flags
  have hsplit : Supply t ([i₂, i₃] ++ l) rest := hsupply
  obtain ⟨s', hloop, hsupply', hdraws'⟩ := hsplit.initPoolLoop flags 0 (kptov (s.addr i₁))
  refine ⟨s', ?_, hsupply', hdraws.trans hdraws'⟩
  have hpages : poolPages = [i₂, i₃].length + 1 := by
    rw [show poolPages = 3 by decide]
    rfl
  rw [Paging.initPool, hpages, Paging.initPoolLoop, bind_run_of_ok hnext, bind_run_of_ok hmap,
    if_pos rfl]
  exact hloop

/-- What `init_heap_page` has done: page 0 is mapped to the frame of one entry, through a table in
the frame of another one, and holds one segment. -/
structure Starts (s s' : PagingState) (pl i j : Nat) : Prop where
  entries : ∀ k, s'.physicalPageEntries k =
    if k ∈ [i, j] then { s.physicalPageEntries k with type := .allocated }
    else s.physicalPageEntries k
  paged : Paged s'.frames
  hasTable : ∀ slot, s'.frames.HasTable slot ↔ s.frames.HasTable slot ∨ slot = 0
  isTable : ∀ f, s'.frames.IsTable f ↔ s.frames.IsTable f ∨ f = s.addr j / 4096
  page : frameOf s'.frames 0 = some (s.addr i / 4096)
  heap : OneSegment s'.frames (s.addr i / 4096)
  index : s'.index pl = 1
  kernelPool : s'.kernelPool = s.kernelPool

/-- The variables `init_heap_page` changes before it maps page 0. -/
theorem initHeapPage_before (s : PagingState) (pl : Nat) : ∃ u : PagingState,
    (∀ m : PageM Unit, (do
      modifyPool pl fun p => { p with nextFreePageIndex := 1 }
      modifyFirstPage pl fun page => { page with type := .allocated }
      m : PageM Unit) s = m u) ∧
    u.frames = s.frames ∧ u.physicalPageEntries = s.physicalPageEntries ∧ u.index pl = 1 ∧
      u.kernelPool = s.kernelPool := by
  refine ⟨_, fun _ => rfl, rfl, rfl, ?_, rfl⟩
  simp [PagingState.index, PagingState.setPool, PagingState.access, Pool.setEntry]

/-- And those after it. -/
theorem initHeapPage_after (s : PagingState) (pl flags : Nat) : ∃ u : PagingState,
    (∀ m : PageM Unit, (do
      modifyFirstPage pl fun page =>
        { page with baseVaddr := 0, nextPage := .null, previousPage := .null }
      modifyPool pl fun p => { p with ring := if fKern flags then 0 else 3 }
      m : PageM Unit) s = m u) ∧
    u.frames = s.frames ∧ u.physicalPageEntries = s.physicalPageEntries ∧
      u.index pl = s.index pl ∧ u.kernelPool = s.kernelPool := by
  refine ⟨_, fun _ => rfl, rfl, rfl, ?_, rfl⟩
  simp [PagingState.index, PagingState.setPool, PagingState.access, Pool.setEntry]

/-- Page 0 is mapped, through a new table. -/
theorem Supply.mapPage_zero {j : Nat} (h : Supply s (j :: l) rest)
    (habsent : ¬ s.frames.HasTable 0) {p : Nat} (hp : p % 4096 = 0) :
    ∃ s', mapPage p 0 flags s = .ok ((), s') ∧
      (∀ k, s'.physicalPageEntries k = if k = j then { s.physicalPageEntries k with
        type := .allocated } else s.physicalPageEntries k) ∧
      Paged s'.frames ∧ (∀ slot, s'.frames.HasTable slot ↔ s.frames.HasTable slot ∨ slot = 0) ∧
      (∀ f, s'.frames.IsTable f ↔ s.frames.IsTable f ∨ f = s.addr j / 4096) ∧
      frameOf s'.frames 0 = some (p / 4096 % 1048576) ∧ s'.pools = s.pools ∧
      s'.kernelPool = s.kernelPool := by
  have husable := h.usable j List.mem_cons_self
  have htake : Paged (s.take j).frames := h.paged
  have husable' : (s.take j).frames.Usable (s.addr j) := husable
  have habsent' : ¬ (s.take j).frames.HasTable 0 := habsent
  have hserve := husable'.canServe htake
  have hmap : mapPage p 0 flags s =
      .ok ((), ((s.take j).withTable 0 (s.addr j)).mapped 0 p flags) :=
    h.paged.tables.mapPage_absent rfl hp (by decide) habsent h.firstFree rfl hserve
  obtain ⟨hchanges, htables⟩ : Changes (· = 0) (s.take j).frames _ ∧ _ :=
    htake.withTable husable' (show 0 < 768 by decide) habsent'
  have hinstalled := hserve.installed htake.tables (show 0 < 1024 by decide) habsent'
  have hpaged := hchanges.paged htake
  generalize hu : (s.take j).withTable 0 (s.addr j) = u at *
  have hslot : u.frames.HasTable (slotOf 0) := (hinstalled.hasTable _).mpr (.inr rfl)
  have hapart := hinstalled.tables.apart _ hslot
  have hchange : Change (· = 0) u.frames (u.mapped 0 p flags).frames := .entry rfl (by decide) hslot
  refine ⟨_, hmap, ?_, hchange.paged hpaged, ?_, ?_, hinstalled.tables.frameOf_mapped hslot, ?_, ?_⟩
  · intro k
    rw [← hu]
    change Function.update s.physicalPageEntries j _ k = _
    by_cases hk : k = j
    · simp [hk]
    · simp [hk]
  · intro slot
    rw [mapped_frames, hasTable_set hapart, hinstalled.hasTable]
    rfl
  · intro f
    rw [mapped_frames, isTable_set hapart, htables]
    rfl
  · rw [← hu]
    rfl
  · rw [← hu]
    rfl

/-- `init_heap_page` with a pool whose index is 0. -/
theorem Supply.initHeapPage {i j pl : Nat} (h : Supply s (i :: j :: l) rest)
    (habsent : ¬ s.frames.HasTable 0) (hindex : s.index pl = 0) (flags : Nat) :
    ∃ s', Paging.initHeapPage pl flags s = .ok ((), s') ∧ Starts s s' pl i j := by
  have husable := h.usable i List.mem_cons_self
  have husable' := h.usable j (List.mem_cons_of_mem _ List.mem_cons_self)
  have hcheck : checkFresh pl s = .ok ((), s) := by
    rw [checkFresh, if_neg (not_not.mpr hindex)]
  obtain ⟨u, hbefore, hframes, hentries, hone, hkernel⟩ := initHeapPage_before (s.take i) pl
  have hdraws : Draws s u [i] := by
    constructor
    · intro k
      rw [hentries]
      change Function.update s.physicalPageEntries i _ k = _
      by_cases hk : k = i
      · simp [hk]
      · simp [hk]
    · intro slot
      rw [hframes]
      rfl
    · intro f
      rw [hframes]
      rfl
  have hsupply : Supply u (j :: l) rest := by
    refine h.drawn hdraws ?_
    rw [hframes]
    exact h.paged
  have habsent' : ¬ u.frames.HasTable 0 := fun hslot => habsent ((hdraws.hasTable 0).mp hslot)
  obtain ⟨w, hmap, hwentries, hwpaged, hwhas, hwtable, hwpage, hwpools, hwkernel⟩ :
      ∃ w, mapPage (s.addr i) 0 F_KERN u = .ok ((), w) ∧ _ :=
    hsupply.mapPage_zero habsent' husable.1
  obtain ⟨x, hafter, hxframes, hxentries, hxindex, hxkernel⟩ := initHeapPage_after w pl flags
  have hpage : frameOf x.frames 0 = some (s.addr i / 4096) := by
    have hlt := husable.2.1
    unfold windowFrames at hlt
    rw [hxframes, hwpage, Nat.mod_eq_of_lt (by omega)]
  have hfresh : ¬ x.frames.IsTable (s.addr i / 4096) := by
    rw [hxframes, hwtable, hdraws.isTable, hdraws.addr]
    rintro (hold | heq)
    · exact husable.2.2 hold
    · have hij := h.distinct i List.mem_cons_self j (List.mem_cons_of_mem _ List.mem_cons_self)
        (frame_injective husable.1 husable'.1 heq)
      have hnodup := freeEntries_nodup s
      rw [h.entries, hij] at hnodup
      exact (List.nodup_cons.mp hnodup).1 List.mem_cons_self
  obtain ⟨m', hheap, hdiff, hsegment⟩ := initialiseHeap_segment hfresh hpage
  have htables := isTable_of_data hfresh hdiff
  have hdirectory : m' directoryFrame = x.frames directoryFrame :=
    hdiff _ fun heq => hfresh (.inl heq.symm)
  refine ⟨{ x with frames := m' }, ?_, ?_⟩
  · rw [Paging.initHeapPage, bind_run_of_ok hcheck,
      bind_run_of_ok (getNextFreePhysicalPage_run h.firstFree)]
    refine (hbefore _).trans ?_
    rw [show (s.physicalPageEntries i).physAddr = s.addr i from rfl, bind_run_of_ok hmap]
    exact (hafter _).trans hheap
  · constructor
    · intro k
      change x.physicalPageEntries k = _
      rw [hxentries, hwentries, hdraws.entries]
      by_cases hki : k = i
      · by_cases hkj : k = j
        · simp [hki]
        · simp [hki]
      · by_cases hkj : k = j
        · rw [hkj] at hki ⊢
          simp [hki]
        · simp [hki, hkj]
    · rw [← hxframes] at hwpaged
      refine hwpaged.congr (fun slot => congrFun hdirectory slot) fun f hf => ?_
      have hsame : m' (windowTable f) = x.frames (windowTable f) :=
        hdiff _ fun heq => hfresh (heq ▸ hwpaged.isTable_window hf)
      change present (m' (windowTable f) _) = true ∧ baseAddr (m' (windowTable f) _) = f
      rw [hsame]
      exact hwpaged.entries f hf
    · intro slot
      have hsame : Frames.HasTable m' slot ↔ x.frames.HasTable slot := by
        unfold Frames.HasTable
        rw [hdirectory]
      rw [hsame, hxframes, hwhas, hdraws.hasTable]
    · intro f
      rw [htables, hxframes, hwtable, hdraws.isTable, hdraws.addr]
    · rw [frameOf, walk_of_data hfresh hdiff (by decide)]
      exact hpage
    · exact hsegment
    · change x.index pl = 1
      rw [hxindex, PagingState.index, hwpools]
      exact hone
    · change x.kernelPool = s.kernelPool
      rw [hxkernel, hwkernel, hkernel]
      rfl

theorem Supply.clearIdentityPages (h : Supply s l rest) :
    ∃ s', Paging.clearIdentityPages s = .ok ((), s') ∧ Supply s' l rest ∧
      s'.physicalPageEntries = s.physicalPageEntries ∧ ¬ s'.frames.HasTable 0 ∧
      (∀ f, s'.frames.IsTable f → s.frames.IsTable f) ∧ s'.pools = s.pools := by
  obtain ⟨s', hrun, hpaged, hentries, _, hhas, htable⟩ :=
    h.paged.clearIdentityLoop (show 0 + 6 ≤ 768 by decide)
  have haddr : ∀ i, s'.addr i = s.addr i := by
    intro i
    rw [PagingState.addr, PagingState.addr, hentries]
  have hsub : ∀ f, s'.frames.IsTable f → s.frames.IsTable f := by
    rintro f (hf | ⟨x, hx, heq⟩)
    · exact .inl hf
    · exact .inr ⟨x, ((hhas x).mp hx).1, by rw [← htable x hx]; exact heq⟩
  refine ⟨s', hrun, ⟨hpaged, ?_, ?_, ?_⟩, hentries, ?_, hsub, ?_⟩
  · rw [← h.entries, PagingState.freeEntries, PagingState.freeEntries, hentries]
  · intro i hi
    obtain ⟨haligned, hlt, hnot⟩ := h.usable i hi
    rw [haddr]
    exact ⟨haligned, hlt, fun hf => hnot (hsub _ hf)⟩
  · intro i hi j hj heq
    rw [haddr, haddr] at heq
    exact h.distinct i hi j hj heq
  · rw [hhas]
    omega
  · exact (stable_pools fun pools _ => pools = s.pools).clearIdentityPages s rfl () s' hrun

/-- The state in which `paging_init` calls `init_heap_page`. -/
theorem Supply.pagingInit {i₁ i₂ i₃ : Nat} (h : Supply s (i₁ :: i₂ :: i₃ :: l) rest) :
    ∃ t, pagingInit s = Paging.initHeapPage (kptov (s.addr i₁)) F_KERN t ∧ Supply t l rest ∧
      t.kernelPool = kptov (s.addr i₁) ∧ t.pools = s.pools ∧ ¬ t.frames.HasTable 0 ∧
      (∀ f, t.frames.IsTable f → s.frames.IsTable f) ∧
      ∀ i, t.physicalPageEntries i = if i ∈ [i₁, i₂, i₃] then
        { s.physicalPageEntries i with type := .allocated } else s.physicalPageEntries i := by
  obtain ⟨u, hclear, hsupply, hentries, habsent, hsub, hpools⟩ := h.clearIdentityPages
  obtain ⟨w, hpool, hsupply', hdraws⟩ := hsupply.initPool F_KERN
  have hwpools : w.pools = u.pools :=
    (stable_pools fun pools _ => pools = u.pools).initPool F_KERN u rfl _ w hpool
  have haddr : u.addr i₁ = s.addr i₁ := by
    rw [PagingState.addr, PagingState.addr, hentries]
  rw [haddr] at hpool
  have hkernel : ∃ t, initKernelPool u = .ok ((), t) ∧ t.frames = w.frames ∧
      t.physicalPageEntries = w.physicalPageEntries ∧ t.pools = w.pools ∧
      t.kernelPool = kptov (s.addr i₁) := by
    rw [initKernelPool, bind_run_of_ok hpool]
    exact ⟨_, rfl, rfl, rfl, rfl, rfl⟩
  obtain ⟨t, hrun, htframes, htentries, htpools, htkernel⟩ := hkernel
  refine ⟨t, ?_, hsupply'.congr htframes htentries, htkernel, ?_, ?_, ?_, ?_⟩
  · rw [Paging.pagingInit, bind_run_of_ok hclear, bind_run_of_ok hrun, initKernelHeap, htkernel]
  · rw [htpools, hwpools, hpools]
  · rw [htframes]
    exact fun hslot => habsent ((hdraws.hasTable 0).mp hslot)
  · rw [htframes]
    exact fun f hf => hsub f ((hdraws.isTable f).mp hf)
  · intro i
    rw [htentries, hdraws.entries, hentries]

end Supply

end NickOS3.Paging
