import NickOS3.Paging.Window

/-!
# Allocation from sound frames

As long as every free entry of the table names a frame of the window of its own that is not
a page table, each function of the allocator makes only changes that keep the window.
-/

namespace NickOS3.Paging

open Foundation

/-- An address of a frame of the window that is no table. -/
def Frames.Usable (m : Frames) (address : Nat) : Prop :=
  address % 4096 = 0 ∧ address / 4096 < windowFrames ∧ ¬ m.IsTable (address / 4096)

/-- A free entry of `physical_page_entries`. -/
def PagingState.Free (s : PagingState) (i : Nat) : Prop :=
  i < MAX_PHYS_PAGES ∧ (s.physicalPageEntries i).type = .free

/-- The address in an entry of `physical_page_entries`. -/
def PagingState.addr (s : PagingState) (i : Nat) : Nat := (s.physicalPageEntries i).physAddr

/-- The free entries of the table, in its order. -/
def PagingState.freeEntries (s : PagingState) : List Nat :=
  (List.range MAX_PHYS_PAGES).filter fun i => (s.physicalPageEntries i).type = .free

theorem mem_freeEntries {s : PagingState} {i : Nat} : i ∈ s.freeEntries ↔ s.Free i := by
  unfold PagingState.freeEntries PagingState.Free
  rw [List.mem_filter, List.mem_range, decide_eq_true_iff]

/-- The window is mapped, and the free entries name usable frames, no two the same. -/
structure Sound (s : PagingState) : Prop where
  paged : Paged s.frames
  usable : ∀ i, s.Free i → s.frames.Usable (s.addr i)
  distinct : ∀ i j, s.Free i → s.Free j → s.addr i = s.addr j → i = j

/-- A usable address that no free entry names. -/
def PagingState.Taken (s : PagingState) (address : Nat) : Prop :=
  s.frames.Usable address ∧ ∀ i, s.Free i → s.addr i ≠ address

section FirstFree

variable {entries : Nat → PhysPage} {i : Nat} {s : PagingState}

theorem firstFree_eq_some (h : firstFree s.physicalPageEntries = some i) : s.Free i := by
  have hmem := List.mem_of_find?_eq_some h
  have htype := List.find?_some h
  exact ⟨List.mem_range.mp hmem, by simpa using htype⟩

theorem firstFree_eq_none (h : firstFree s.physicalPageEntries = none) (i : Nat) : ¬ s.Free i := by
  rintro ⟨hi, htype⟩
  have := List.find?_eq_none.mp h i (List.mem_range.mpr hi)
  simp [htype] at this

/-- The first free entry is the least one. -/
theorem le_of_firstFree (h : firstFree s.physicalPageEntries = some i) {j : Nat}
    (hj : s.Free j) : i ≤ j := by
  obtain ⟨_, as, bs, happend, hbefore⟩ := List.find?_eq_some_iff_append.mp h
  by_contra hlt
  have hsorted : (List.range MAX_PHYS_PAGES).Pairwise (· < ·) := List.pairwise_lt_range
  rw [happend] at hsorted
  have hmem : j ∈ as ++ i :: bs := happend ▸ List.mem_range.mpr hj.1
  rcases List.mem_append.mp hmem with has | hbs
  · have := hbefore j has
    simp [hj.2] at this
  · rcases List.mem_cons.mp hbs with rfl | hbs
    · omega
    · have := (List.pairwise_cons.mp (List.pairwise_append.mp hsorted).2.1).1 j hbs
      omega

theorem firstFree_of_least (h : s.Free i) (hleast : ∀ j, s.Free j → i ≤ j) :
    firstFree s.physicalPageEntries = some i := by
  cases hfree : firstFree s.physicalPageEntries with
  | none => exact absurd h (firstFree_eq_none hfree i)
  | some j =>
      have hj := firstFree_eq_some hfree
      rw [Nat.le_antisymm (le_of_firstFree hfree h) (hleast j hj)]

theorem getNextFreePhysicalPage_none (h : firstFree s.physicalPageEntries = none) :
    getNextFreePhysicalPage s = .ok (NO_ADDR, s) := by
  unfold getNextFreePhysicalPage
  rw [h]

end FirstFree

section IsTable

variable {m m' : Frames} {frame index word f : Nat}

/-- The directory determines the tables. -/
theorem isTable_congr (h : m' directoryFrame = m directoryFrame) : m'.IsTable f ↔ m.IsTable f := by
  unfold Frames.IsTable Frames.HasTable Frames.table
  rw [h]

theorem isTable_set (h : frame ≠ directoryFrame) :
    (m.set frame index word).IsTable f ↔ m.IsTable f := by
  unfold Frames.IsTable
  simp only [hasTable_set h, table_set h]

theorem isTable_install {slot : Nat} (hslot : slot < 1024) (habsent : ¬ m.HasTable slot)
    (hpresent : present word = true) :
    (m.set directoryFrame slot word).IsTable f ↔ m.IsTable f ∨ f = baseAddr word := by
  unfold Frames.IsTable
  simp only [hasTable_install hslot hpresent, table_install]
  constructor
  · rintro (h | ⟨x, hx, heq⟩)
    · exact .inl (.inl h)
    · split at heq
      · exact .inr heq.symm
      · exact .inl (.inr ⟨x, hx.resolve_right ‹_›, heq⟩)
  · rintro ((h | ⟨x, hx, heq⟩) | rfl)
    · exact .inl h
    · refine .inr ⟨x, .inl hx, ?_⟩
      rw [if_neg]
      · exact heq
      · rintro rfl
        exact habsent hx
    · exact .inr ⟨slot, .inr rfl, if_pos rfl⟩

end IsTable

section Steps

variable {s : PagingState} {i f p flags : Nat} {heap : Nat → Prop}

@[simp] theorem take_free (j : Nat) : (s.take i).Free j ↔ s.Free j ∧ j ≠ i := by
  unfold PagingState.Free PagingState.take
  by_cases hj : j = i
  · subst hj
    simp
  · simp [hj]

@[simp] theorem take_addr (j : Nat) : (s.take i).addr j = s.addr j := by
  unfold PagingState.addr PagingState.take
  by_cases hj : j = i
  · subst hj
    simp
  · simp [hj]

/-- A frame that is taken is no longer free, and nothing else changes. -/
theorem Sound.take (h : Sound s) (hi : s.Free i) :
    Sound (s.take i) ∧ (s.take i).Taken (s.addr i) := by
  refine ⟨⟨h.paged, ?_, ?_⟩, h.usable i hi, ?_⟩
  · intro j hj
    rw [take_free] at hj
    rw [take_addr]
    exact h.usable j hj.1
  · intro j k hj hk heq
    rw [take_free] at hj hk
    rw [take_addr, take_addr] at heq
    exact h.distinct j k hj.1 hk.1 heq
  · intro j hj heq
    rw [take_free] at hj
    rw [take_addr] at heq
    exact hj.2 (h.distinct j i hj.1 hi heq)

/-- Soundness is kept where the table of frames and the tables in memory are. -/
theorem Sound.congr {s' : PagingState} (h : Sound s) (hpaged : Paged s'.frames)
    (hentries : s'.physicalPageEntries = s.physicalPageEntries)
    (htables : ∀ f, s'.frames.IsTable f ↔ s.frames.IsTable f) : Sound s' := by
  have hfree : ∀ i, s'.Free i ↔ s.Free i := by
    intro i
    unfold PagingState.Free
    rw [hentries]
  have haddr : ∀ i, s'.addr i = s.addr i := by
    intro i
    unfold PagingState.addr
    rw [hentries]
  constructor
  · exact hpaged
  · intro i hi
    rw [hfree] at hi
    rw [haddr, Frames.Usable, htables]
    exact h.usable i hi
  · intro i j hi hj heq
    rw [hfree] at hi hj
    rw [haddr, haddr] at heq
    exact h.distinct i j hi hj heq

theorem PagingState.Taken.congr {s' : PagingState} {address : Nat} (h : s.Taken address)
    (hentries : s'.physicalPageEntries = s.physicalPageEntries)
    (htables : ∀ f, s'.frames.IsTable f ↔ s.frames.IsTable f) : s'.Taken address := by
  refine ⟨⟨h.1.1, h.1.2.1, by rw [htables]; exact h.1.2.2⟩, ?_⟩
  intro i hi
  unfold PagingState.Free PagingState.addr at *
  rw [hentries] at hi ⊢
  exact h.2 i hi

/-- A frame of the window is mapped at its own page. -/
theorem Paged.mapped_window (h : Paged s.frames) (hf : p / 4096 < windowFrames) :
    (s.mapped (tablePage (p / 4096)) p flags).frames
      = s.frames.set (windowTable (p / 4096)) (p / 4096 % 1024)
        (mapEntry p flags (s.frames (windowTable (p / 4096)) (p / 4096 % 1024))) := by
  rw [mapped_frames, h.table_window hf, indexOf_window hf]

theorem baseAddr_mapEntry_window (hf : p / 4096 < windowFrames) (entry : Nat) :
    baseAddr (mapEntry p flags entry) = p / 4096 := by
  rw [baseAddr_mapEntry]
  unfold windowFrames at hf
  omega

/-- Mapping it there rewrites one entry of the window. -/
theorem Paged.change_mapped_window (h : Paged s.frames) (hf : p / 4096 < windowFrames) :
    Change heap s.frames (s.mapped (tablePage (p / 4096)) p flags).frames ∧
      ∀ f, (s.mapped (tablePage (p / 4096)) p flags).frames.IsTable f ↔ s.frames.IsTable f := by
  rw [h.mapped_window hf]
  exact ⟨.window hf (present_mapEntry ..) (baseAddr_mapEntry_window hf _),
    fun f => isTable_set windowTable_ne⟩

theorem Sound.mapped_window (h : Sound s) (hf : p / 4096 < windowFrames) :
    Sound (s.mapped (tablePage (p / 4096)) p flags) ∧
      Change heap s.frames (s.mapped (tablePage (p / 4096)) p flags).frames ∧
      ∀ f, (s.mapped (tablePage (p / 4096)) p flags).frames.IsTable f ↔ s.frames.IsTable f := by
  obtain ⟨hchange, htables⟩ : Change heap s.frames _ ∧ _ := h.paged.change_mapped_window hf
  exact ⟨h.congr (hchange.paged h.paged) rfl htables, hchange, htables⟩

theorem pageOf_kptov (hp : p % 4096 = 0) : pageOf (kptov p) = tablePage (p / 4096) := by
  rw [tablePage, Nat.div_mul_cancel (Nat.dvd_of_mod_eq_zero hp)]

theorem kptov_aligned (hp : p % 4096 = 0) : kptov p % 4096 = 0 := by
  unfold kptov u32
  omega

/-- `map_page` of a frame of the window at its page in the window, unless the frame is the
table that holds the entry of that page. -/
theorem Paged.mapPage_window (h : Paged s.frames) (haligned : p % 4096 = 0)
    (hlt : p / 4096 < windowFrames) (hself : p / 4096 ≠ windowTable (p / 4096)) :
    mapPage p (kptov p) flags s = .ok ((), s.mapped (tablePage (p / 4096)) p flags) := by
  have hpage := pageOf_kptov haligned
  rw [mapPage, ← hpage]
  have hfits : p / 4096 < 1048576 := by
    unfold windowFrames at hlt
    omega
  apply h.tables.mapPage_present (kptov_aligned haligned) haligned
  · rw [hpage]
    exact tablePage_lt
  · rw [hpage]
    exact h.hasTable_window hlt
  · rw [hpage, h.table_window hlt]
    intro heq
    have hwindow : windowTable (p / 4096) < 1048576 := by
      unfold windowTable
      unfold windowFrames at hlt
      omega
    exact hself (tablePage_injective hfits hwindow heq)

theorem Frames.Usable.not_windowTable (hp : s.frames.Usable p) (h : Paged s.frames) :
    p / 4096 ≠ windowTable (p / 4096) := by
  intro heq
  exact hp.2.2 (heq ▸ h.isTable_window hp.2.1)

theorem frame_injective {a b : Nat} (ha : a % 4096 = 0) (hb : b % 4096 = 0)
    (h : a / 4096 = b / 4096) : a = b := by
  omega

theorem Frames.Usable.canServe (hu : s.frames.Usable p) (h : Paged s.frames) :
    s.frames.CanServe p := by
  obtain ⟨haligned, hlt, hfresh⟩ := hu
  refine ⟨haligned, ?_, fun heq => hfresh (.inl heq), ?_, h.hasTable_window hlt⟩
  · unfold windowFrames at hlt
    omega
  · exact fun slot hslot heq => hfresh (.inr ⟨slot, hslot, heq⟩)

theorem PagingState.Taken.canServe (h : s.Taken p) (hs : Sound s) : s.frames.CanServe p :=
  h.1.canServe hs.paged

/-- A usable frame becomes a table for heap pages. -/
theorem Paged.withTable (h : Paged s.frames) (hu : s.frames.Usable p) {slot : Nat}
    (hslot : slot < 768) (habsent : ¬ s.frames.HasTable slot) :
    Changes heap s.frames (s.withTable slot p).frames ∧
      ∀ f, (s.withTable slot p).frames.IsTable f ↔ s.frames.IsTable f ∨ f = p / 4096 := by
  obtain ⟨_, hlt, hfresh⟩ := hu
  obtain ⟨hfirst, hsame⟩ : Change heap s.frames (s.mapped (tablePage (p / 4096)) p F_KERN).frames ∧
      ∀ f, (s.mapped (tablePage (p / 4096)) p F_KERN).frames.IsTable f ↔ s.frames.IsTable f :=
    h.change_mapped_window hlt
  have hbase : baseAddr (tableEntry p ((s.mapped (tablePage (p / 4096)) p F_KERN).frames
      directoryFrame slot)) = p / 4096 := by
    rw [baseAddr_tableEntry]
    unfold windowFrames at hlt
    omega
  have habsent' : ¬ (s.mapped (tablePage (p / 4096)) p F_KERN).frames.HasTable slot := by
    rw [h.mapped_window hlt, hasTable_set windowTable_ne]
    exact habsent
  have hsecond : Change heap (s.mapped (tablePage (p / 4096)) p F_KERN).frames
      (s.withTable slot p).frames :=
    .table hslot habsent' hlt (by rw [hsame]; exact hfresh) (present_tableEntry ..) hbase
  refine ⟨.tail (.single hfirst) hsecond, fun f => ?_⟩
  rw [PagingState.withTable, tableInstalled_frames,
    isTable_install (by omega) habsent' (present_tableEntry ..), hbase, hsame]

theorem Sound.withTable (h : Sound s) (ht : s.Taken p) {slot : Nat} (hslot : slot < 768)
    (habsent : ¬ s.frames.HasTable slot) :
    Sound (s.withTable slot p) ∧ Changes heap s.frames (s.withTable slot p).frames ∧
      ∀ f, (s.withTable slot p).frames.IsTable f ↔ s.frames.IsTable f ∨ f = p / 4096 := by
  obtain ⟨hchanges, htables⟩ : Changes heap s.frames _ ∧ _ := h.paged.withTable ht.1 hslot habsent
  refine ⟨⟨hchanges.paged h.paged, ?_, h.distinct⟩, hchanges, htables⟩
  intro i hi
  obtain ⟨haddr, hwindow, hnot⟩ := h.usable i hi
  refine ⟨haddr, hwindow, ?_⟩
  rw [htables]
  rintro (htable | heq)
  · exact hnot htable
  · exact ht.2 i hi (frame_injective haddr ht.1.1 heq)

/-- Without a frame for the table `map_page` panics. -/
theorem Tables.mapPage_noFrame {v : Nat} (h : Tables s.frames) (hv : v % 4096 = 0)
    (hp : p % 4096 = 0) (hpage : pageOf v < 1048576)
    (habsent : ¬ s.frames.HasTable (slotOf (pageOf v)))
    (hfree : firstFree s.physicalPageEntries = none) : mapPage p v flags s = .error .panic := by
  have hpde : present (s.frames directoryFrame (slotOf (pageOf v))) = false := by
    by_contra hne
    exact habsent ⟨slotOf_lt hpage, by simpa using hne⟩
  have hinner : mapPageWithin (MAX_PHYS_PAGES + 1) NO_ADDR (kptov NO_ADDR) F_KERN s
      = .error .panic := by
    rw [mapPageWithin, if_pos (.inr (by decide)), Program.throw_run]
  rw [mapPage, mapPageWithin, if_neg (by simp [PGSIZE, hv, hp]),
    Program.bind_run_of_ok (h.load_pde hpage), hpde]
  have hbranch : (do
      let ptAddr ← getNextFreePhysicalPage
      mapPageWithin (MAX_PHYS_PAGES + 1) ptAddr (kptov ptAddr) F_KERN
      setPde (pdNo v) ptAddr
      recordInstalled (pdNo v) : PageM Unit) s = .error .panic := by
    rw [Program.bind_run_of_ok (getNextFreePhysicalPage_none hfree), Program.bind_run, hinner]
    rfl
  rw [Program.bind_run]
  simp only [Bool.false_eq_true, if_false, hbranch]
  rfl

/-- `map_page` of a heap page. -/
theorem Sound.mapPage_heap (h : Sound s) {s' : PagingState} {v : Nat} (hv : v % 4096 = 0)
    (hpage : pageOf v < kernelPage) (hp : p % 4096 = 0) (hheap : heap (pageOf v))
    (hrun : mapPage p v flags s = .ok ((), s')) :
    Sound s' ∧ Changes heap s.frames s'.frames ∧ (∀ q, s.Taken q → s'.Taken q) ∧
      frameOf s'.frames (pageOf v) = some (p / 4096 % 1048576) := by
  have hlt : pageOf v < 1048576 := by
    unfold kernelPage at hpage
    omega
  have hslot : slotOf (pageOf v) < 768 := by
    unfold kernelPage at hpage
    unfold slotOf
    omega
  have hentry : ∀ {u : PagingState}, Sound u → u.frames.HasTable (slotOf (pageOf v)) →
      Sound (u.mapped (pageOf v) p flags) ∧
      Change heap u.frames (u.mapped (pageOf v) p flags).frames ∧
      (∀ f, (u.mapped (pageOf v) p flags).frames.IsTable f ↔ u.frames.IsTable f) ∧
      frameOf (u.mapped (pageOf v) p flags).frames (pageOf v) = some (p / 4096 % 1048576) := by
    intro u hu htable
    have hchange : Change heap u.frames (u.mapped (pageOf v) p flags).frames :=
      .entry hheap hpage htable
    have hsame : ∀ f, (u.mapped (pageOf v) p flags).frames.IsTable f ↔ u.frames.IsTable f :=
      fun f => isTable_set (hu.paged.apart _ htable)
    exact ⟨hu.congr (hchange.paged hu.paged) rfl hsame, hchange, hsame,
      hu.paged.tables.frameOf_mapped htable⟩
  by_cases htable : s.frames.HasTable (slotOf (pageOf v))
  · have hself : pageOf v ≠ tablePage (s.frames.table (slotOf (pageOf v))) := by
      rw [tablePage_window (h.paged.low _ htable)]
      omega
    have hmap : mapPage p v flags s = .ok ((), s.mapped (pageOf v) p flags) :=
      h.paged.tables.mapPage_present hv hp hlt htable hself
    rw [hmap] at hrun
    cases hrun
    obtain ⟨hsound, hchange, hsame, hframe⟩ := hentry h htable
    exact ⟨hsound, .single hchange, fun q hq => hq.congr rfl hsame, hframe⟩
  · cases hfree : firstFree s.physicalPageEntries with
    | none =>
        rw [h.paged.tables.mapPage_noFrame hv hp hlt htable hfree] at hrun
        cases hrun
    | some i =>
        have hi := firstFree_eq_some hfree
        obtain ⟨htake, htaken⟩ := h.take hi
        have hmap : mapPage p v flags s = .ok ((),
            ((s.take i).withTable (slotOf (pageOf v)) (s.addr i)).mapped (pageOf v) p flags) :=
          h.paged.tables.mapPage_absent hv hp hlt htable hfree rfl (htaken.canServe htake)
        rw [hmap] at hrun
        cases hrun
        obtain ⟨hsound, hchanges, htables⟩ := htake.withTable htaken hslot htable
        have hnew : ((s.take i).withTable (slotOf (pageOf v)) (s.addr i)).frames.HasTable
            (slotOf (pageOf v)) := by
          refine ⟨by omega, ?_⟩
          rw [PagingState.withTable, tableInstalled_frames, Frames.set_self]
          exact present_tableEntry ..
        obtain ⟨hsound', hchange, hsame, hframe⟩ := hentry hsound hnew
        refine ⟨hsound', hchanges.tail hchange, ?_, hframe⟩
        intro q hq
        have hne : q / 4096 ≠ s.addr i / 4096 := fun heq =>
          hq.2 i hi (frame_injective hq.1.1 htaken.1.1 heq).symm
        refine ⟨⟨hq.1.1, hq.1.2.1, ?_⟩, ?_⟩
        · rw [hsame]
          intro htable'
          rcases (htables _).mp htable' with hold | heq
          · exact hq.1.2.2 hold
          · exact hne heq
        · intro j hj heq
          have hfree' := (take_free j).mp hj
          exact hq.2 j hfree'.1 ((take_addr (i := i) j).symm.trans heq)

end Steps

end NickOS3.Paging
