import NickOS3.Paging.Allocator

/-!
# `map_page` on sound page tables

When the directory and the page tables are mapped in the kernel's window and no frame
serves twice, a call of `map_page` changes one word of one table, after it has installed a
new table where none was.
-/

namespace NickOS3.Paging

open Foundation

/-- The page at which the kernel reaches its directory. -/
def directoryPage : Nat := 0xC0006

/-- The page at which the kernel reaches the page table in a frame. -/
def tablePage (frame : Nat) : Nat := pageOf (kptov (frame * 4096))

/-- A present directory entry. -/
def Frames.HasTable (m : Frames) (slot : Nat) : Prop :=
  slot < 1024 ∧ present (m directoryFrame slot) = true

/-- The frame of the table under a directory entry. -/
def Frames.table (m : Frames) (slot : Nat) : Nat := baseAddr (m directoryFrame slot)

/-- The directory and every page table are mapped where the kernel looks for them, and no
frame is the directory or a table twice. -/
structure Tables (m : Frames) : Prop where
  directory : frameOf m directoryPage = some directoryFrame
  reachable : ∀ slot, m.HasTable slot → frameOf m (tablePage (m.table slot)) = some (m.table slot)
  apart : ∀ slot, m.HasTable slot → m.table slot ≠ directoryFrame
  distinct : ∀ slot slot', m.HasTable slot → m.HasTable slot' →
    m.table slot = m.table slot' → slot = slot'

/-- An entry of a page table after `map_page` has assigned to its fields. -/
def mapEntry (paddr flags entry : Nat) : Nat :=
  let entry := setReadWrite (setPresent (setBaseAddr (paddr / 4096) entry))
  if fKern flags then setUserSupervisor entry else entry

/-- An entry of the directory after `map_page` has assigned to its fields. -/
def tableEntry (ptAddr entry : Nat) : Nat :=
  setReadWrite (setPresent (setBaseAddr (ptAddr / 4096) entry))

@[simp] theorem present_mapEntry (paddr flags entry : Nat) :
    present (mapEntry paddr flags entry) = true := by
  unfold mapEntry
  split <;> simp

@[simp] theorem readWrite_mapEntry (paddr flags entry : Nat) :
    readWrite (mapEntry paddr flags entry) = true := by
  unfold mapEntry
  split <;> simp

@[simp] theorem baseAddr_mapEntry (paddr flags entry : Nat) :
    baseAddr (mapEntry paddr flags entry) = paddr / 4096 % 1048576 := by
  unfold mapEntry
  split <;> simp

@[simp] theorem present_tableEntry (ptAddr entry : Nat) :
    present (tableEntry ptAddr entry) = true := by simp [tableEntry]

@[simp] theorem readWrite_tableEntry (ptAddr entry : Nat) :
    readWrite (tableEntry ptAddr entry) = true := by simp [tableEntry]

@[simp] theorem baseAddr_tableEntry (ptAddr entry : Nat) :
    baseAddr (tableEntry ptAddr entry) = ptAddr / 4096 % 1048576 := by simp [tableEntry]

/-! ## Addresses -/

section Addresses

variable {t i : Nat}

theorem pageOf_pdeAddr (hi : i < 1024) : pageOf (pdeAddr i) = directoryPage := by
  unfold pdeAddr kernelPd directoryPage pageOf u32
  omega

theorem wordOf_pdeAddr (hi : i < 1024) : wordOf (pdeAddr i) = i := by
  unfold pdeAddr kernelPd wordOf u32
  omega

theorem pageOf_pteAddr (hi : i < 1024) :
    pageOf (pteAddr (kptov (t * 4096)) i) = tablePage t := by
  unfold pteAddr tablePage kptov pageOf u32
  omega

theorem wordOf_pteAddr (hi : i < 1024) : wordOf (pteAddr (kptov (t * 4096)) i) = i := by
  unfold pteAddr kptov wordOf u32
  omega

theorem tablePage_eq : tablePage t = (t + 786432) % 1048576 := by
  unfold tablePage kptov pageOf u32
  omega

theorem tablePage_lt : tablePage t < 1048576 := by
  rw [tablePage_eq]
  omega

theorem tablePage_injective {t' : Nat} (ht : t < 1048576) (ht' : t' < 1048576)
    (h : tablePage t = tablePage t') : t = t' := by
  rw [tablePage_eq, tablePage_eq] at h
  omega

theorem directoryPage_eq : directoryPage = tablePage directoryFrame := by decide

theorem slotOf_lt {page : Nat} (h : page < 1048576) : slotOf page < 1024 := by
  unfold slotOf
  omega

theorem indexOf_lt {page : Nat} : indexOf page < 1024 := Nat.mod_lt _ (by decide)

theorem pdNo_eq (v : Nat) : pdNo v = slotOf (pageOf v) := by
  unfold pdNo slotOf pageOf
  omega

theorem ptNo_eq (v : Nat) : ptNo v = indexOf (pageOf v) := rfl

theorem page_ext {page page' : Nat} (hslot : slotOf page = slotOf page')
    (hindex : indexOf page = indexOf page') : page = page' := by
  unfold slotOf at hslot
  unfold indexOf at hindex
  omega

theorem table_lt (m : Frames) (slot : Nat) : m.table slot < 1048576 := baseAddr_lt _

end Addresses

/-! ## Changing one word -/

section Set

variable {m : Frames} {frame index word page : Nat}

theorem directory_set (h : frame ≠ directoryFrame) (slot : Nat) :
    (m.set frame index word) directoryFrame slot = m directoryFrame slot := by
  rw [Frames.set_apply, if_neg fun hf => h hf.1.symm]

/-- A page is not translated where one of its entries is absent. -/
theorem walk_eq_none_iff : walk m page = none ↔
    present (m directoryFrame (slotOf page)) = false ∨
      present (m (m.table (slotOf page)) (indexOf page)) = false := by
  rw [walk, Frames.table, ite_eq_right_iff, Bool.and_eq_true]
  constructor
  · intro h
    by_contra hnot
    rw [not_or, Bool.not_eq_false, Bool.not_eq_false] at hnot
    cases h hnot
  · rintro h ⟨hpde, hpte⟩
    rcases h with h | h
    · rw [h] at hpde
      cases hpde
    · rw [h] at hpte
      cases hpte

/-- A translated page has both entries present. -/
theorem present_of_walk_ne (h : walk m page ≠ none) :
    present (m directoryFrame (slotOf page)) = true ∧
      present (m (m.table (slotOf page)) (indexOf page)) = true := by
  rwa [ne_eq, walk_eq_none_iff, not_or, Bool.not_eq_false, Bool.not_eq_false] at h

/-- Changing an entry of a table leaves the pages of other entries alone. -/
theorem walk_set (h : frame ≠ directoryFrame)
    (hother : present (m directoryFrame (slotOf page)) = true →
      m.table (slotOf page) = frame → indexOf page ≠ index) :
    walk (m.set frame index word) page = walk m page := by
  apply walk_congr (directory_set h _)
  intro hpresent
  rw [Frames.set_apply, if_neg fun hf => hother hpresent hf.1 hf.2]

/-- Changing a directory entry leaves the pages of other entries alone. -/
theorem walk_set_directory (hslot : slotOf page ≠ index)
    (htable : present (m directoryFrame (slotOf page)) = true →
      m.table (slotOf page) ≠ directoryFrame) :
    walk (m.set directoryFrame index word) page = walk m page := by
  apply walk_congr
  · rw [Frames.set_apply, if_neg fun hf => hslot hf.2]
  · intro hpresent
    rw [Frames.set_apply, if_neg fun hf => htable hpresent hf.1]

/-- A translated page is reached through present entries only. -/
theorem walk_set_absent (habsent : present (m frame index) = false) (h : walk m page ≠ none) :
    walk (m.set frame index word) page = walk m page := by
  obtain ⟨hpde, hpte⟩ := present_of_walk_ne h
  have hne : ∀ f i, present (m f i) = true → ¬ (f = frame ∧ i = index) := by
    rintro f i hpresent ⟨rfl, rfl⟩
    rw [habsent] at hpresent
    cases hpresent
  apply walk_congr
  · rw [Frames.set_apply, if_neg (hne _ _ hpde)]
  · intro _
    exact (Frames.set_apply ..).trans (if_neg (hne _ _ hpte))

theorem walk_ne_none_of_frameOf {frame : Nat} (h : frameOf m page = some frame) :
    walk m page ≠ none := by
  rintro hnone
  rw [frameOf, hnone] at h
  cases h

theorem hasTable_set (h : frame ≠ directoryFrame) (slot : Nat) :
    (m.set frame index word).HasTable slot ↔ m.HasTable slot := by
  unfold Frames.HasTable
  rw [directory_set h]

theorem table_set (h : frame ≠ directoryFrame) (slot : Nat) :
    (m.set frame index word).table slot = m.table slot := by
  unfold Frames.table
  rw [directory_set h]

theorem hasTable_install {slot x : Nat} (hslot : slot < 1024) (hpresent : present word = true) :
    (m.set directoryFrame slot word).HasTable x ↔ m.HasTable x ∨ x = slot := by
  unfold Frames.HasTable
  rw [Frames.set_apply]
  by_cases hx : x = slot
  · subst hx
    simp [hpresent, hslot]
  · simp [hx]

theorem table_install {slot x : Nat} :
    (m.set directoryFrame slot word).table x = if x = slot then baseAddr word else m.table x := by
  unfold Frames.table
  rw [Frames.set_apply]
  by_cases hx : x = slot
  · simp [hx]
  · simp [hx]

end Set

/-- The entry of a page in its table is what `map_page` makes it. -/
def PagingState.mapped (s : PagingState) (page paddr flags : Nat) : PagingState :=
  s.set (s.frames.table (slotOf page)) (indexOf page)
    (mapEntry paddr flags (s.frames (s.frames.table (slotOf page)) (indexOf page)))

/-- A directory entry is made to lead to a new table. -/
def PagingState.tableInstalled (s : PagingState) (slot ptAddr : Nat) : PagingState :=
  { s.set directoryFrame slot (tableEntry ptAddr (s.frames directoryFrame slot)) with
    installed := slot :: s.installed }

@[simp] theorem set_frames (s : PagingState) (frame index word : Nat) :
    (s.set frame index word).frames = s.frames.set frame index word := rfl

@[simp] theorem take_frames (s : PagingState) (i : Nat) : (s.take i).frames = s.frames := rfl

@[simp] theorem tableInstalled_frames (s : PagingState) (slot ptAddr : Nat) :
    (s.tableInstalled slot ptAddr).frames = s.frames.set directoryFrame slot
      (tableEntry ptAddr (s.frames directoryFrame slot)) := rfl

@[simp] theorem mapped_frames (s : PagingState) (page paddr flags : Nat) :
    (s.mapped page paddr flags).frames
      = s.frames.set (s.frames.table (slotOf page)) (indexOf page)
        (mapEntry paddr flags (s.frames (s.frames.table (slotOf page)) (indexOf page))) := rfl

@[simp] theorem set_set (s : PagingState) (frame index w w' : Nat) :
    (s.set frame index w).set frame index w' = s.set frame index w' := by
  unfold PagingState.set
  simp only [Frames.set_set]

/-! ## What the changes keep -/

section Kept

variable {m : Frames} {page page' slot word t : Nat}

/-- Changing the entry of a page changes the translation of no other page. -/
theorem Tables.walk_mapped (h : Tables m) (hslot : m.HasTable (slotOf page))
    (hpage' : page' < 1048576) (hne : page' ≠ page) :
    walk (m.set (m.table (slotOf page)) (indexOf page) word) page' = walk m page' := by
  apply walk_set (h.apart _ hslot)
  intro hpresent htable hindex
  have hslots := h.distinct _ _ ⟨slotOf_lt hpage', hpresent⟩ hslot htable
  exact hne (page_ext hslots hindex)

/-- The entry of a page that leads to no table may change. -/
theorem Tables.mapped (h : Tables m) (hslot : m.HasTable (slotOf page))
    (hdirectory : page ≠ directoryPage)
    (htables : ∀ slot, m.HasTable slot → page ≠ tablePage (m.table slot)) :
    Tables (m.set (m.table (slotOf page)) (indexOf page) word) := by
  have hapart := h.apart _ hslot
  constructor
  · rw [frameOf, h.walk_mapped hslot (by decide) hdirectory.symm]
    exact h.directory
  · intro slot hs
    rw [hasTable_set hapart] at hs
    rw [table_set hapart, frameOf, h.walk_mapped hslot tablePage_lt (htables slot hs).symm]
    exact h.reachable slot hs
  · intro slot hs
    rw [hasTable_set hapart] at hs
    rw [table_set hapart]
    exact h.apart slot hs
  · intro slot slot' hs hs' heq
    rw [hasTable_set hapart] at hs hs'
    rw [table_set hapart, table_set hapart] at heq
    exact h.distinct slot slot' hs hs' heq

/-- A directory entry that was absent may lead to a table. -/
theorem Tables.walk_installed (h : Tables m) (habsent : ¬ m.HasTable slot)
    (hpage : m.HasTable (slotOf page)) :
    walk (m.set directoryFrame slot word) page = walk m page := by
  apply walk_set_directory
  · rintro rfl
    exact habsent hpage
  · intro _
    exact h.apart _ hpage

theorem hasTable_of_frameOf {frame : Nat} (hpage : page < 1048576)
    (h : frameOf m page = some frame) : m.HasTable (slotOf page) := by
  obtain ⟨mapping, hwalk, _⟩ := Option.map_eq_some_iff.mp h
  exact ⟨slotOf_lt hpage, present_of_walk hwalk⟩

/-- A frame mapped in the window becomes the table under an absent directory entry. -/
theorem Tables.installed (h : Tables m) (hslot : slot < 1024) (habsent : ¬ m.HasTable slot)
    (hreach : frameOf m (tablePage t) = some t) (hapart : t ≠ directoryFrame)
    (hfresh : ∀ slot, m.HasTable slot → m.table slot ≠ t)
    (hpresent : present word = true) (hbase : baseAddr word = t) :
    Tables (m.set directoryFrame slot word) := by
  have hhas : ∀ x, (m.set directoryFrame slot word).HasTable x ↔ m.HasTable x ∨ x = slot :=
    fun _ => hasTable_install hslot hpresent
  have htable : ∀ x, (m.set directoryFrame slot word).table x
      = if x = slot then t else m.table x := by
    intro x
    rw [table_install, hbase]
  have hold : ∀ x, m.HasTable x → x ≠ slot := by
    rintro x hx rfl
    exact habsent hx
  constructor
  · rw [frameOf, h.walk_installed habsent (hasTable_of_frameOf (by decide) h.directory)]
    exact h.directory
  · intro x hx
    rw [htable]
    rcases (hhas x).mp hx with hx | rfl
    · rw [if_neg (hold x hx), frameOf, h.walk_installed habsent
        (hasTable_of_frameOf tablePage_lt (h.reachable x hx))]
      exact h.reachable x hx
    · rw [if_pos rfl, frameOf, h.walk_installed habsent (hasTable_of_frameOf tablePage_lt hreach)]
      exact hreach
  · intro x hx
    rw [htable]
    rcases (hhas x).mp hx with hx | rfl
    · rw [if_neg (hold x hx)]
      exact h.apart x hx
    · rw [if_pos rfl]
      exact hapart
  · intro x y hx hy heq
    rw [htable, htable] at heq
    rcases (hhas x).mp hx with hx' | rfl
    · rcases (hhas y).mp hy with hy' | rfl
      · rw [if_neg (hold x hx'), if_neg (hold y hy')] at heq
        exact h.distinct x y hx' hy' heq
      · rw [if_neg (hold x hx'), if_pos rfl] at heq
        exact absurd heq (hfresh x hx')
    · rcases (hhas y).mp hy with hy' | rfl
      · rw [if_pos rfl, if_neg (hold y hy')] at heq
        exact absurd heq.symm (hfresh y hy')
      · rfl

end Kept

/-! ## Runs of `map_page` -/

section Runs

variable {s : PagingState} {p v flags fuel : Nat}

/-- The assignments to the fields of one entry of a table, which may be the entry through which
the table is reached where the page frame stays. -/
theorem setPte_run {t i : Nat} (ht : t ≠ directoryFrame) (hi : i < 1024)
    (hreach : frameOf s.frames (tablePage t) = some t)
    (hother : s.frames.table (slotOf (tablePage t)) = t → indexOf (tablePage t) = i →
      p / 4096 % 1048576 = t) :
    setPte (kptov (t * 4096)) i p flags s
      = .ok ((), s.set t i (mapEntry p flags (s.frames t i))) := by
  have hkeep : ∀ word, baseAddr word = p / 4096 % 1048576 →
      (present (s.frames t i) = true → present word = true) →
      frameOf (s.set t i word).frames (pageOf (pteAddr (kptov (t * 4096)) i)) = some t := by
    intro word hbase hpresent
    rw [pageOf_pteAddr hi, set_frames]
    by_cases hself : s.frames.table (slotOf (tablePage t)) = t ∧ indexOf (tablePage t) = i
    · obtain ⟨hpde, hpte⟩ := present_of_walk_ne (walk_ne_none_of_frameOf hreach)
      rw [hself.1, hself.2] at hpte
      have hpde' :
          present (s.frames.set t i word directoryFrame (slotOf (tablePage t))) = true := by
        rw [directory_set ht]
        exact hpde
      have hentry : (s.frames.set t i word) t (indexOf (tablePage t)) = word := by
        rw [hself.2, Frames.set_self]
      rw [frameOf, walk_of_present hpde' ((table_set ht _).trans hself.1) hentry (hpresent hpte),
        Option.map_some, hbase, hother hself.1 hself.2]
    · rw [frameOf, walk_set ht fun _ htable hindex => hself ⟨htable, hindex⟩]
      exact hreach
  have hstep : ∀ word f, baseAddr word = p / 4096 % 1048576 →
      (present (s.frames t i) = true → present word = true) →
      modify (pteAddr (kptov (t * 4096)) i) f (s.set t i word) = .ok ((), s.set t i (f word)) := by
    intro word f hbase hpresent
    rw [modify_run (hkeep word hbase hpresent), wordOf_pteAddr hi]
    simp
  have hfirst : ∀ f, modify (pteAddr (kptov (t * 4096)) i) f s
      = .ok ((), s.set t i (f (s.frames t i))) := by
    intro f
    rw [modify_run (by rw [pageOf_pteAddr hi]; exact hreach), wordOf_pteAddr hi]
  unfold setPte mapEntry
  rw [Program.bind_run_of_ok (hfirst _), Program.bind_run_of_ok (hstep _ _ (by simp) (by simp)),
    Program.bind_run_of_ok (hstep _ _ (by simp) (by simp))]
  split
  · exact hstep _ _ (by simp) (by simp)
  · rfl

/-- The assignments to the fields of an entry of the directory that is not on the way to it. -/
theorem setPde_run {slot ptAddr : Nat} (hslot : slot < 1024)
    (hreach : frameOf s.frames directoryPage = some directoryFrame)
    (hkeep : ∀ word, frameOf (s.frames.set directoryFrame slot word) directoryPage
      = some directoryFrame) :
    setPde slot ptAddr s = .ok ((), s.set directoryFrame slot
      (tableEntry ptAddr (s.frames directoryFrame slot))) := by
  have hstep : ∀ word f, modify (pdeAddr slot) f (s.set directoryFrame slot word)
      = .ok ((), s.set directoryFrame slot (f word)) := by
    intro word f
    rw [modify_run (by rw [pageOf_pdeAddr hslot]; exact hkeep word), wordOf_pdeAddr hslot]
    simp
  have hfirst : ∀ f, modify (pdeAddr slot) f s
      = .ok ((), s.set directoryFrame slot (f (s.frames directoryFrame slot))) := by
    intro f
    rw [modify_run (by rw [pageOf_pdeAddr hslot]; exact hreach), wordOf_pdeAddr hslot]
  unfold setPde tableEntry
  rw [Program.bind_run_of_ok (hfirst _), Program.bind_run_of_ok (hstep _ _)]
  exact hstep _ _

theorem Tables.setPde_run (h : Tables s.frames) {slot ptAddr : Nat} (hslot : slot < 1024)
    (hne : slotOf directoryPage ≠ slot) :
    setPde slot ptAddr s = .ok ((), s.set directoryFrame slot
      (tableEntry ptAddr (s.frames directoryFrame slot))) := by
  have hpage := hasTable_of_frameOf (by decide) h.directory
  refine Paging.setPde_run hslot h.directory fun word => ?_
  rw [frameOf, walk_set_directory hne fun _ => h.apart _ hpage]
  exact h.directory

/-- An absent entry is not the one through which the directory is reached. -/
theorem Tables.slot_directoryPage_ne (h : Tables s.frames) {slot : Nat}
    (habsent : ¬ s.frames.HasTable slot) : slotOf directoryPage ≠ slot := by
  rintro rfl
  exact habsent (hasTable_of_frameOf (by decide) h.directory)

/-- `kernel_pd[pd_idx]` -/
theorem load_pde (hreach : frameOf s.frames directoryPage = some directoryFrame)
    (hv : pageOf v < 1048576) :
    load (pdeAddr (pdNo v)) s = .ok (s.frames directoryFrame (slotOf (pageOf v)), s) := by
  have hlt : pdNo v < 1024 := by
    rw [pdNo_eq]
    exact slotOf_lt hv
  rw [load_run (by rw [pageOf_pdeAddr hlt]; exact hreach), wordOf_pdeAddr hlt, pdNo_eq]

theorem Tables.load_pde (h : Tables s.frames) (hv : pageOf v < 1048576) :
    load (pdeAddr (pdNo v)) s = .ok (s.frames directoryFrame (slotOf (pageOf v)), s) :=
  Paging.load_pde h.directory hv

/-- The last part of `map_page`, once the page has a table. -/
theorem Tables.setPte_run (h : Tables s.frames)
    (hslot : s.frames.HasTable (slotOf (pageOf v)))
    (hself : pageOf v ≠ tablePage (s.frames.table (slotOf (pageOf v)))) :
    setPte (kptov (s.frames.table (slotOf (pageOf v)) * 4096)) (ptNo v) p flags s
      = .ok ((), s.mapped (pageOf v) p flags) := by
  rw [ptNo_eq]
  apply Paging.setPte_run (h.apart _ hslot) indexOf_lt (h.reachable _ hslot)
  intro htable hindex
  have hwindow := hasTable_of_frameOf tablePage_lt (h.reachable _ hslot)
  have hslots := h.distinct _ _ hwindow hslot htable
  exact absurd (page_ext hslots.symm hindex.symm) hself

/-- Where the page has its table, `map_page` changes its entry in it. -/
theorem Tables.mapPage_present (h : Tables s.frames) (hv : v % 4096 = 0) (hp : p % 4096 = 0)
    (hpage : pageOf v < 1048576) (hslot : s.frames.HasTable (slotOf (pageOf v)))
    (hself : pageOf v ≠ tablePage (s.frames.table (slotOf (pageOf v)))) :
    mapPageWithin (fuel + 1) p v flags s = .ok ((), s.mapped (pageOf v) p flags) := by
  have hload := h.load_pde hpage
  rw [mapPageWithin, if_neg (by simp [PGSIZE, hv, hp]), Program.bind_run_of_ok hload,
    if_pos hslot.2, Program.bind_run_of_ok (Program.pure_run ()),
    Program.bind_run_of_ok hload]
  exact h.setPte_run hslot hself

theorem getNextFreePhysicalPage_run {i : Nat}
    (h : firstFree s.physicalPageEntries = some i) :
    getNextFreePhysicalPage s = .ok ((s.physicalPageEntries i).physAddr, s.take i) := by
  unfold getNextFreePhysicalPage
  rw [h]

/-- A page is translated as its entry says once it has been mapped. -/
theorem Tables.frameOf_mapped (h : Tables s.frames) {page : Nat}
    (hslot : s.frames.HasTable (slotOf page)) :
    frameOf (s.mapped page p flags).frames page = some (p / 4096 % 1048576) := by
  have hapart := h.apart _ hslot
  rw [frameOf, mapped_frames, walk_of_present (by rw [directory_set hapart]; exact hslot.2)
    (table_set hapart _) (Frames.set_self ..) (present_mapEntry ..)]
  simp

/-- A frame that can become a page table: it is no table yet, and the directory has an entry
for the page the kernel reaches it at. -/
structure Frames.CanServe (m : Frames) (address : Nat) : Prop where
  aligned : address % 4096 = 0
  fits : address < 4294967296
  apart : address / 4096 ≠ directoryFrame
  fresh : ∀ slot, m.HasTable slot → m.table slot ≠ address / 4096
  window : m.HasTable (slotOf (tablePage (address / 4096)))

/-- The state in which the table in a frame has been installed. -/
def PagingState.withTable (s : PagingState) (slot ptAddr : Nat) : PagingState :=
  (s.mapped (tablePage (ptAddr / 4096)) ptAddr F_KERN).tableInstalled slot ptAddr

/-- The frame of a new table is reached at its page. -/
theorem Frames.CanServe.reach {ptAddr : Nat} (hserve : s.frames.CanServe ptAddr)
    (h : Tables s.frames) :
    frameOf (s.mapped (tablePage (ptAddr / 4096)) ptAddr flags).frames
      (tablePage (ptAddr / 4096)) = some (ptAddr / 4096) := by
  have hfits := hserve.fits
  rw [h.frameOf_mapped hserve.window, Nat.mod_eq_of_lt (by omega)]

theorem Frames.CanServe.tables_mapped {ptAddr : Nat} (hserve : s.frames.CanServe ptAddr)
    (h : Tables s.frames) :
    Tables (s.mapped (tablePage (ptAddr / 4096)) ptAddr F_KERN).frames := by
  have hlt : ptAddr / 4096 < 1048576 := by
    have := hserve.fits
    omega
  apply h.mapped hserve.window
  · rw [directoryPage_eq]
    intro heq
    exact hserve.apart (tablePage_injective hlt (by decide) heq)
  · intro slot hslot heq
    exact hserve.fresh slot hslot (tablePage_injective hlt (table_lt _ _) heq).symm

/-- Installing a table keeps the tables sound. -/
theorem Frames.CanServe.tables {ptAddr slot : Nat} (hserve : s.frames.CanServe ptAddr)
    (h : Tables s.frames) (hslot : slot < 1024) (habsent : ¬ s.frames.HasTable slot) :
    Tables (s.withTable slot ptAddr).frames := by
  have hlt : ptAddr / 4096 < 1048576 := by
    have := hserve.fits
    omega
  have hapart := h.apart _ hserve.window
  have hmapped := hserve.tables_mapped h
  apply hmapped.installed hslot _ (hserve.reach h) hserve.apart
  · intro x hx
    rw [mapped_frames, hasTable_set hapart] at hx
    rw [mapped_frames, table_set hapart]
    exact hserve.fresh x hx
  · exact present_tableEntry ..
  · rw [baseAddr_tableEntry, Nat.mod_eq_of_lt hlt]
  · rw [mapped_frames, hasTable_set hapart]
    exact habsent

/-- Where the page has no table, `map_page` takes a frame and calls itself for the page of the
window at which it is reached. Then it installs the frame and changes the entry of the page. -/
theorem Tables.mapPage_through (h : Tables s.frames) {i ptAddr : Nat} {u : PagingState}
    (hv : v % 4096 = 0) (hp : p % 4096 = 0) (hpage : pageOf v < 1048576)
    (habsent : ¬ s.frames.HasTable (slotOf (pageOf v)))
    (hfree : firstFree s.physicalPageEntries = some i)
    (haddr : (s.physicalPageEntries i).physAddr = ptAddr)
    (hinner : mapPageWithin fuel ptAddr (kptov ptAddr) F_KERN (s.take i) = .ok ((), u))
    (hu : Tables u.frames) (habsent' : ¬ u.frames.HasTable (slotOf (pageOf v)))
    (hfits : ptAddr < 4294967296) (hapart : ptAddr / 4096 ≠ directoryFrame)
    (hfresh : ∀ slot, u.frames.HasTable slot → u.frames.table slot ≠ ptAddr / 4096)
    (hreach : frameOf u.frames (tablePage (ptAddr / 4096)) = some (ptAddr / 4096)) :
    Tables (u.tableInstalled (slotOf (pageOf v)) ptAddr).frames ∧
      mapPageWithin (fuel + 1) p v flags s
        = .ok ((), (u.tableInstalled (slotOf (pageOf v)) ptAddr).mapped (pageOf v) p flags) := by
  have hslot : slotOf (pageOf v) < 1024 := slotOf_lt hpage
  have hlt : ptAddr / 4096 < 1048576 := by omega
  have hinstall : setPde (slotOf (pageOf v)) ptAddr u = _ :=
    hu.setPde_run hslot (hu.slot_directoryPage_ne habsent')
  have hbase : baseAddr (tableEntry ptAddr (u.frames directoryFrame (slotOf (pageOf v)))) =
      ptAddr / 4096 := by
    rw [baseAddr_tableEntry, Nat.mod_eq_of_lt hlt]
  have htables : Tables (u.tableInstalled (slotOf (pageOf v)) ptAddr).frames :=
    hu.installed hslot habsent' hreach hapart hfresh (present_tableEntry ..) hbase
  refine ⟨htables, ?_⟩
  have hnew :
      (u.tableInstalled (slotOf (pageOf v)) ptAddr).frames.HasTable (slotOf (pageOf v)) := by
    refine ⟨hslot, ?_⟩
    rw [tableInstalled_frames, Frames.set_self]
    exact present_tableEntry ..
  have htable : (u.tableInstalled (slotOf (pageOf v)) ptAddr).frames.table (slotOf (pageOf v)) =
      ptAddr / 4096 := by
    rw [tableInstalled_frames, table_install, if_pos rfl, hbase]
  have hself : pageOf v ≠ tablePage ((u.tableInstalled (slotOf (pageOf v))
      ptAddr).frames.table (slotOf (pageOf v))) := by
    rw [htable]
    intro heq
    rw [heq] at habsent'
    exact habsent' (hasTable_of_frameOf tablePage_lt hreach)
  have hpde : present (s.frames directoryFrame (slotOf (pageOf v))) = false := by
    by_contra hne
    exact habsent ⟨hslot, by simpa using hne⟩
  rw [mapPageWithin, if_neg (by simp [PGSIZE, hv, hp]),
    Program.bind_run_of_ok (h.load_pde hpage), hpde]
  have hbranch : (do
      let ptAddr ← getNextFreePhysicalPage
      mapPageWithin fuel ptAddr (kptov ptAddr) F_KERN
      setPde (pdNo v) ptAddr
      recordInstalled (pdNo v) : PageM Unit) s
      = .ok ((), u.tableInstalled (slotOf (pageOf v)) ptAddr) := by
    rw [Program.bind_run_of_ok (getNextFreePhysicalPage_run hfree), haddr,
      Program.bind_run_of_ok hinner, pdNo_eq, Program.bind_run_of_ok hinstall]
    rfl
  rw [Program.bind_run_of_ok (by simpa using hbranch),
    Program.bind_run_of_ok (htables.load_pde hpage)]
  exact htables.setPte_run hnew hself

/-- Where the frame can serve as a table, its page of the window has one. -/
theorem Tables.mapPage_absent (h : Tables s.frames) {i ptAddr : Nat} (hv : v % 4096 = 0)
    (hp : p % 4096 = 0) (hpage : pageOf v < 1048576)
    (habsent : ¬ s.frames.HasTable (slotOf (pageOf v)))
    (hfree : firstFree s.physicalPageEntries = some i)
    (haddr : (s.physicalPageEntries i).physAddr = ptAddr) (hserve : s.frames.CanServe ptAddr) :
    mapPageWithin (fuel + 2) p v flags s
      = .ok ((), ((s.take i).withTable (slotOf (pageOf v)) ptAddr).mapped (pageOf v) p flags) := by
  have hlt : ptAddr / 4096 < 1048576 := by
    have := hserve.fits
    omega
  have htake : Tables (s.take i).frames := h
  have hserve' : (s.take i).frames.CanServe ptAddr := hserve
  have hptAddr : ptAddr / 4096 * 4096 = ptAddr := Nat.div_mul_cancel
    (Nat.dvd_of_mod_eq_zero hserve.aligned)
  have hkptov : pageOf (kptov ptAddr) = tablePage (ptAddr / 4096) := by
    rw [tablePage, hptAddr]
  have hapart : (s.take i).frames.table _ ≠ _ := htake.apart _ hserve'.window
  have hinner : mapPageWithin (fuel + 1) ptAddr (kptov ptAddr) F_KERN (s.take i)
      = .ok ((), (s.take i).mapped (tablePage (ptAddr / 4096)) ptAddr F_KERN) := by
    rw [← hkptov]
    apply htake.mapPage_present
    · have := hserve.aligned
      unfold kptov u32
      omega
    · exact hserve.aligned
    · rw [hkptov]
      exact tablePage_lt
    · rw [hkptov]
      exact hserve.window
    · rw [hkptov]
      intro heq
      exact hserve.fresh _ hserve.window (tablePage_injective hlt (table_lt _ _) heq).symm
  have habsent' : ¬ ((s.take i).mapped (tablePage (ptAddr / 4096)) ptAddr
      F_KERN).frames.HasTable (slotOf (pageOf v)) := by
    rw [mapped_frames, hasTable_set hapart]
    exact habsent
  refine (h.mapPage_through hv hp hpage habsent hfree haddr hinner (hserve'.tables_mapped htake)
    habsent' hserve.fits hserve.apart ?_ (hserve'.reach htake)).2
  intro slot hslot
  rw [mapped_frames, hasTable_set hapart] at hslot
  rw [mapped_frames, table_set hapart]
  exact hserve.fresh slot hslot

end Runs

end NickOS3.Paging
