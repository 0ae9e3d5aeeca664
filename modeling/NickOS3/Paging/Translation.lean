import NickOS3.Paging.Directory
import Mathlib.Data.List.Nodup

/-!
# What one call of `map_page` translates

`map_page` makes tables of free frames until it has come to one that is there, and changes one
entry in each of them, from the innermost call outwards. It clears none of them, so it changes
one translation where their frames hold no present entry for another page.
-/

namespace NickOS3.Paging

open Foundation Program

/-! ## The entries a call changes -/

/-- A table that a call makes: the page that needs it, and its frame. -/
structure NewTable where
  page : Nat
  frame : Nat

/-- The tables that a call for a page makes of the next free frames, its own first: as long as
the page has none, one for it, and those for the page at which the new one is reached. -/
inductive Makes : PagingState → Nat → List NewTable → Prop
  | nothing {s : PagingState} {page : Nat} : s.frames.HasTable (slotOf page) → Makes s page []
  | table {s : PagingState} {page i : Nat} {made : List NewTable} :
      ¬ s.frames.HasTable (slotOf page) → firstFree s.physicalPageEntries = some i →
      Makes (s.take i) (tablePage (s.addr i / 4096)) made →
      Makes s page (⟨page, s.addr i / 4096⟩ :: made)

/-- The entry of a page is made to lead to a page frame. -/
structure PageChange where
  page : Nat
  paddr : Nat
  flags : Nat

/-- The change that the innermost call makes, in a table that is there. -/
def PageChange.innermost : PageChange → List NewTable → PageChange
  | c, [] => c
  | _, t :: made => innermost ⟨tablePage t.frame, t.frame * 4096, F_KERN⟩ made

/-- The table that is there. -/
def PagingState.oldTable (s : PagingState) (c : PageChange) (made : List NewTable) : Nat :=
  s.frames.table (slotOf (c.innermost made).page)

/-- The frames that become tables are in use neither as the directory nor as tables, and no frame
and no entry of the directory is needed twice. The entry that the innermost call changes is that
of a table and leads neither to this table nor, where calls follow, to the directory. -/
structure Apart (s : PagingState) (c : PageChange) (made : List NewTable) : Prop where
  fits : ∀ t ∈ made, t.frame < 1048576
  fresh : ∀ t ∈ made, ¬ s.frames.IsTable t.frame
  frames : (made.map NewTable.frame).Nodup
  slots : (made.map fun t => slotOf t.page).Nodup
  table : s.oldTable c made ≠ directoryFrame
  own : s.frames.table (slotOf (tablePage (s.oldTable c made))) = s.oldTable c made →
    indexOf (tablePage (s.oldTable c made)) = indexOf (c.innermost made).page →
      (c.innermost made).paddr / 4096 % 1048576 = s.oldTable c made
  directory : made ≠ [] → s.frames.table (slotOf directoryPage) = s.oldTable c made →
    indexOf directoryPage ≠ indexOf (c.innermost made).page

/-- What a call has done to the words of the directory and of the tables. -/
structure Changed (s s' : PagingState) (c : PageChange) (made : List NewTable) : Prop where
  hasTable : s'.frames.HasTable (slotOf c.page)
  entry : ∃ old, s'.frames (s'.frames.table (slotOf c.page)) (indexOf c.page)
    = mapEntry c.paddr c.flags old
  new : ∀ t ∈ made, s'.frames directoryFrame (slotOf t.page)
    = tableEntry (t.frame * 4096) (s.frames directoryFrame (slotOf t.page))
  directory : ∀ x, (∀ t ∈ made, slotOf t.page ≠ x) →
    s'.frames directoryFrame x = s.frames directoryFrame x
  content : ∀ t ∈ made, ∀ k, k ≠ indexOf t.page → s'.frames t.frame k = s.frames t.frame k
  inner : ∀ k, k ≠ indexOf (c.innermost made).page →
    s'.frames (s.oldTable c made) k = s.frames (s.oldTable c made) k
  innermost : s'.frames (s.oldTable c made) (indexOf (c.innermost made).page)
    = mapEntry (c.innermost made).paddr (c.innermost made).flags
      (s.frames (s.oldTable c made) (indexOf (c.innermost made).page))
  others : ∀ f, f ≠ directoryFrame → f ≠ s.oldTable c made → (∀ t ∈ made, t.frame ≠ f) →
    s'.frames f = s.frames f
  free : ∀ i, s'.Free i → s.Free i
  took : ∀ i, s.Free i → ¬ s'.Free i → ∃ t ∈ made, t.frame = s.addr i / 4096
  taken : ∀ t ∈ made, ∃ i, s.Free i ∧ ¬ s'.Free i ∧ s.addr i / 4096 = t.frame

section Changes

variable {s s' : PagingState} {c : PageChange} {t : NewTable} {made : List NewTable}
  {i p v flags fuel : Nat}

/-- The calls that a call makes of itself leave the way to the directory alone. -/
theorem Apart.directory_inner (h : Apart s c (t :: made)) :
    (s.take i).frames.table (slotOf directoryPage)
        = (s.take i).oldTable ⟨tablePage t.frame, t.frame * 4096, F_KERN⟩ made →
      indexOf directoryPage
        ≠ indexOf (PageChange.innermost ⟨tablePage t.frame, t.frame * 4096, F_KERN⟩ made).page :=
  h.directory (List.cons_ne_nil _ _)

theorem Apart.inner (h : Apart s c (t :: made)) :
    Apart (s.take i) ⟨tablePage t.frame, t.frame * 4096, F_KERN⟩ made :=
  ⟨fun t' ht' => h.fits t' (List.mem_cons_of_mem _ ht'),
    fun t' ht' => h.fresh t' (List.mem_cons_of_mem _ ht'),
    (List.nodup_cons.mp h.frames).2, (List.nodup_cons.mp h.slots).2, h.table, h.own,
    fun _ => h.directory_inner⟩

/-- The innermost call finds a table. -/
theorem Makes.innermost {page : Nat} (h : Makes s page made) (c : PageChange) (hc : c.page = page) :
    s.frames.HasTable (slotOf (c.innermost made).page) := by
  induction h generalizing c with
  | nothing hslot =>
      rw [PageChange.innermost, hc]
      exact hslot
  | table _ _ _ ih => exact ih _ rfl

/-- A call for a page whose table is there. -/
theorem mapPageWithin_present (hreach : frameOf s.frames directoryPage = some directoryFrame)
    (hslot : s.frames.HasTable (slotOf (pageOf v)))
    (htable : frameOf s.frames (tablePage (s.frames.table (slotOf (pageOf v))))
      = some (s.frames.table (slotOf (pageOf v))))
    (hapart : Apart s ⟨pageOf v, p, flags⟩ []) (hv : v % 4096 = 0) (hp : p % 4096 = 0)
    (hlt : v < 4294967296) :
    mapPageWithin (fuel + 1) p v flags s = .ok ((), s.mapped (pageOf v) p flags) := by
  have hpage : pageOf v < 1048576 := by
    unfold pageOf
    omega
  have hload := load_pde hreach hpage
  rw [mapPageWithin, if_neg (by simp [PGSIZE, hv, hp]), bind_run_of_ok hload, if_pos hslot.2,
    bind_run_of_ok (pure_run ()), bind_run_of_ok hload, ptNo_eq]
  exact setPte_run hapart.table indexOf_lt htable hapart.own

theorem changed_mapped (hslot : s.frames.HasTable (slotOf (pageOf v)))
    (hapart : Apart s ⟨pageOf v, p, flags⟩ []) :
    Changed s (s.mapped (pageOf v) p flags) ⟨pageOf v, p, flags⟩ [] := by
  have hne : s.frames.table (slotOf (pageOf v)) ≠ directoryFrame := hapart.table
  constructor
  · rw [mapped_frames, hasTable_set hne]
    exact hslot
  · refine ⟨s.frames (s.frames.table (slotOf (pageOf v))) (indexOf (pageOf v)), ?_⟩
    rw [mapped_frames, table_set hne, Frames.set_self]
  · exact fun t ht => absurd ht List.not_mem_nil
  · intro x _
    rw [mapped_frames, directory_set hne]
  · exact fun t ht => absurd ht List.not_mem_nil
  · intro k hk
    rw [mapped_frames]
    exact (Frames.set_apply ..).trans (if_neg fun heq => hk heq.2)
  · exact Frames.set_self ..
  · intro f _ hf _
    exact Function.update_of_ne hf _ _
  · exact fun i hi => hi
  · exact fun i hi hnot => absurd hi hnot
  · exact fun t ht => absurd ht List.not_mem_nil

theorem Makes.of_frame {page f : Nat} (habsent : ¬ s.frames.HasTable (slotOf page))
    (hi : firstFree s.physicalPageEntries = some i) (haddr : s.addr i = f * 4096)
    (hinner : Makes (s.take i) (tablePage f) made) : Makes s page (⟨page, f⟩ :: made) := by
  obtain rfl : s.addr i / 4096 = f := by
    rw [haddr, Nat.mul_div_cancel _ (by decide)]
  exact .table habsent hi hinner

/-- The entries of the directory that the new tables come to have been absent. -/
theorem Makes.absent {page : Nat} (h : Makes s page made) :
    ∀ t ∈ made, ¬ s.frames.HasTable (slotOf t.page) := by
  induction h with
  | nothing _ => exact fun t ht => absurd ht List.not_mem_nil
  | table habsent _ _ ih =>
      intro t ht
      rcases List.mem_cons.mp ht with rfl | ht
      · exact habsent
      · exact ih t ht

/-- The first of the new tables is the one of the page. -/
theorem Makes.head {page : Nat} (h : Makes s page (t :: made)) : t.page = page := by
  cases h
  rfl

/-- A page that uses no entry that changes is translated as before. -/
theorem Changed.walk_kept {w : Nat} (h : Changed s s' c made) (hapart : Apart s c made)
    (hw : w < 1048576) (hslots : ∀ t ∈ made, slotOf t.page ≠ slotOf w)
    (hdirectory : s.frames.table (slotOf w) = directoryFrame →
      ∀ t ∈ made, slotOf t.page ≠ indexOf w)
    (hentry : s.frames.table (slotOf w) = s.oldTable c made →
      indexOf w ≠ indexOf (c.innermost made).page) : walk s'.frames w = walk s.frames w := by
  apply walk_congr (h.directory _ hslots)
  intro hpresent
  by_cases hd : s.frames.table (slotOf w) = directoryFrame
  · rw [show baseAddr (s.frames directoryFrame (slotOf w)) = directoryFrame from hd]
    exact h.directory _ (hdirectory hd)
  · by_cases hold : s.frames.table (slotOf w) = s.oldTable c made
    · rw [show baseAddr (s.frames directoryFrame (slotOf w)) = s.oldTable c made from hold]
      exact h.inner _ (hentry hold)
    · exact congrFun (h.others _ hd hold fun t ht heq =>
        hapart.fresh t ht (.inr ⟨slotOf w, ⟨slotOf_lt hw, hpresent⟩, heq.symm⟩)) _

/-- After a call that calls follow on the directory is reached as before. -/
theorem Changed.reaches (h : Changed s s' c made) (hmakes : Makes s c.page made)
    (hapart : Apart s c made) (hreach : frameOf s.frames directoryPage = some directoryFrame)
    (hne : s.frames.table (slotOf directoryPage) = s.oldTable c made →
      indexOf directoryPage ≠ indexOf (c.innermost made).page) :
    frameOf s'.frames directoryPage = some directoryFrame := by
  obtain ⟨hpde, hpte⟩ := present_of_walk_ne (walk_ne_none_of_frameOf hreach)
  rw [frameOf, h.walk_kept hapart (by decide) ?_ ?_ hne]
  · exact hreach
  · intro t ht heq
    exact hmakes.absent t ht ⟨heq ▸ slotOf_lt (by decide), heq ▸ hpde⟩
  · intro htable t ht heq
    rw [htable] at hpte
    exact hmakes.absent t ht ⟨heq ▸ indexOf_lt, heq ▸ hpte⟩

/-- After the call the table of the page is the old one or a new one. -/
theorem Changed.table_page (h : Changed s s' c made) (hmakes : Makes s c.page made)
    (hapart : Apart s c made) : s.frames.IsTable (s'.frames.table (slotOf c.page)) ∨
      ∃ t ∈ made, t.frame = s'.frames.table (slotOf c.page) := by
  cases made with
  | nil =>
      left
      have hslot := hmakes.innermost c rfl
      rw [Frames.table, h.directory _ fun t ht => absurd ht List.not_mem_nil]
      exact .inr ⟨_, hslot, rfl⟩
  | cons t made =>
      right
      refine ⟨t, List.mem_cons_self, ?_⟩
      have hnew := h.new t List.mem_cons_self
      rw [hmakes.head] at hnew
      have hfits := hapart.fits t List.mem_cons_self
      rw [Frames.table, hnew, baseAddr_tableEntry]
      omega

/-- The page is translated to its frame. -/
theorem Changed.walk_page (h : Changed s s' c made) : ∃ user, walk s'.frames c.page = some
    ⟨c.paddr / 4096 % 1048576, readWrite (s'.frames directoryFrame (slotOf c.page)), user⟩ := by
  obtain ⟨old, hentry⟩ := h.entry
  have hwalk := walk_of_present h.hasTable.2 rfl hentry (present_mapEntry ..)
  rw [baseAddr_mapEntry, readWrite_mapEntry, Bool.and_true] at hwalk
  exact ⟨_, hwalk⟩

theorem Changed.frameOf_page (h : Changed s s' c made) :
    frameOf s'.frames c.page = some (c.paddr / 4096 % 1048576) := by
  obtain ⟨user, hwalk⟩ := h.walk_page
  rw [frameOf, hwalk, Option.map_some]

/-- The directory entry and the entry of the page, once the frame of the new table is mapped in
the window. -/
theorem installed_run {u : PagingState} {f : Nat} (hlt : v < 4294967296)
    (hreach : frameOf u.frames directoryPage = some directoryFrame)
    (habsent : present (u.frames directoryFrame (slotOf (pageOf v))) = false)
    (hfits : f < 1048576) (hf : f ≠ directoryFrame)
    (hwindow : frameOf u.frames (tablePage f) = some f)
    (hother : u.frames.table (slotOf (tablePage f)) ≠ f)
    (hrun : (do
      setPde (slotOf (pageOf v)) (f * 4096)
      recordInstalled (slotOf (pageOf v))
      let pde ← load (pdeAddr (slotOf (pageOf v)))
      setPte (kptov (baseAddr pde * 4096)) (ptNo v) p flags : PageM Unit) u = .ok ((), s')) :
    s' = (u.tableInstalled (slotOf (pageOf v)) (f * 4096)).set f (indexOf (pageOf v))
      (mapEntry p flags (u.frames f (indexOf (pageOf v)))) := by
  have hpage : pageOf v < 1048576 := by
    unfold pageOf
    omega
  have hkept : ∀ {page : Nat} word, walk u.frames page ≠ none →
      walk (u.frames.set directoryFrame (slotOf (pageOf v)) word) page = walk u.frames page :=
    fun _ hpresent => walk_set_absent habsent hpresent
  have hinstall : setPde (slotOf (pageOf v)) (f * 4096) u = _ :=
    setPde_run (slotOf_lt hpage) hreach fun word => by
      rw [frameOf, hkept word (walk_ne_none_of_frameOf hreach)]
      exact hreach
  have hrecord : recordInstalled (slotOf (pageOf v)) _
      = .ok ((), u.tableInstalled (slotOf (pageOf v)) (f * 4096)) := rfl
  rw [bind_run_of_ok hinstall, bind_run_of_ok hrecord] at hrun
  generalize hx : u.tableInstalled (slotOf (pageOf v)) (f * 4096) = x at hrun ⊢
  have hframes : x.frames = u.frames.set directoryFrame (slotOf (pageOf v))
      (tableEntry (f * 4096) (u.frames directoryFrame (slotOf (pageOf v)))) := by
    rw [← hx, tableInstalled_frames]
  have hreach' : frameOf x.frames directoryPage = some directoryFrame := by
    rw [hframes, frameOf, hkept _ (walk_ne_none_of_frameOf hreach)]
    exact hreach
  have hload := load_pde hreach' hpage
  rw [pdNo_eq] at hload
  have hbase : baseAddr (x.frames directoryFrame (slotOf (pageOf v))) = f := by
    rw [hframes, Frames.set_self, baseAddr_tableEntry]
    omega
  have hwindow' : frameOf x.frames (tablePage f) = some f := by
    rw [hframes, frameOf, hkept _ (walk_ne_none_of_frameOf hwindow)]
    exact hwindow
  have hslot : slotOf (tablePage f) ≠ slotOf (pageOf v) := by
    intro heq
    have hpde := (present_of_walk_ne (walk_ne_none_of_frameOf hwindow)).1
    rw [heq, habsent] at hpde
    cases hpde
  have htable : x.frames.table (slotOf (tablePage f)) = u.frames.table (slotOf (tablePage f)) := by
    rw [hframes, table_install, if_neg hslot]
  have hset : setPte (kptov (f * 4096)) (indexOf (pageOf v)) p flags x = _ :=
    setPte_run hf indexOf_lt hwindow' fun hsame => absurd (htable.symm.trans hsame) hother
  rw [bind_run_of_ok hload, hbase, ptNo_eq, hset] at hrun
  have hcontent : x.frames f (indexOf (pageOf v)) = u.frames f (indexOf (pageOf v)) := by
    rw [hframes, Frames.set_apply, if_neg fun heq => hf heq.1]
  rw [← hcontent]
  exact (congrArg Prod.snd (Except.ok.inj hrun)).symm

/-- The words after a new table has been installed and written, by frames. -/
theorem installed_words {u : PagingState} {f slot k entry : Nat} (hf : f ≠ directoryFrame)
    (hs' : s' = (u.tableInstalled slot (f * 4096)).set f k entry) :
    (∀ x, s'.frames directoryFrame x = if x = slot
      then tableEntry (f * 4096) (u.frames directoryFrame x) else u.frames directoryFrame x) ∧
    (∀ x, s'.frames f x = if x = k then entry else u.frames f x) ∧
    (∀ g, g ≠ directoryFrame → g ≠ f → s'.frames g = u.frames g) := by
  refine ⟨fun x => ?_, fun x => ?_, fun g hd hg => ?_⟩
  · rw [hs', set_frames, directory_set hf, tableInstalled_frames, Frames.set_apply]
    by_cases hx : x = slot
    · rw [if_pos ⟨rfl, hx⟩, if_pos hx, hx]
    · rw [if_neg fun heq => hx heq.2, if_neg hx]
  · have hbefore : (u.tableInstalled slot (f * 4096)).frames f x = u.frames f x := by
      rw [tableInstalled_frames, Frames.set_apply, if_neg fun heq => hf heq.1]
    rw [hs', set_frames, Frames.set_apply]
    by_cases hx : x = k
    · rw [if_pos ⟨rfl, hx⟩, if_pos hx]
    · rw [if_neg fun heq => hx heq.2, if_neg hx, hbefore]
  · rw [hs', set_frames, tableInstalled_frames]
    exact (Function.update_of_ne hg _ _).trans (Function.update_of_ne hd _ _)

/-- A call that makes a table, from the call for its frame. -/
theorem Changed.table {u : PagingState} {f : Nat} (hi : firstFree s.physicalPageEntries = some i)
    (haddr : s.addr i = f * 4096) (hmakes : Makes (s.take i) (tablePage f) made)
    (hapart : Apart s c (⟨c.page, f⟩ :: made)) (hpage : c.page < 1048576)
    (hinner : Changed (s.take i) u ⟨tablePage f, f * 4096, F_KERN⟩ made)
    (hs' : s' = (u.tableInstalled (slotOf c.page) (f * 4096)).set f (indexOf c.page)
      (mapEntry c.paddr c.flags (u.frames f (indexOf c.page)))) :
    Changed s s' c (⟨c.page, f⟩ :: made) := by
  have hframe : ∀ t ∈ made, t.frame ≠ f := fun t ht heq =>
    (List.nodup_cons.mp hapart.frames).1 (List.mem_map.mpr ⟨t, ht, heq⟩)
  have hslot : ∀ t ∈ made, slotOf t.page ≠ slotOf c.page := fun t ht heq =>
    (List.nodup_cons.mp hapart.slots).1 (List.mem_map.mpr ⟨t, ht, heq⟩)
  have hfresh := hapart.fresh _ List.mem_cons_self
  have hf : f ≠ directoryFrame := fun heq => hfresh (.inl heq)
  have hold : f ≠ s.oldTable c (⟨c.page, f⟩ :: made) := fun heq =>
    hfresh (.inr ⟨_, hmakes.innermost ⟨tablePage f, f * 4096, F_KERN⟩ rfl, heq.symm⟩)
  obtain ⟨hdirectory, hnew, hsame⟩ := installed_words hf hs'
  have hentry : s'.frames directoryFrame (slotOf c.page)
      = tableEntry (f * 4096) (s.frames directoryFrame (slotOf c.page)) := by
    rw [hdirectory, if_pos rfl, hinner.directory _ hslot, take_frames]
  have hfree : ∀ j, s'.Free j ↔ u.Free j := by
    intro j
    rw [hs']
    rfl
  constructor
  · exact ⟨slotOf_lt hpage, by rw [hentry]; exact present_tableEntry ..⟩
  · refine ⟨u.frames f (indexOf c.page), ?_⟩
    have hfits := hapart.fits _ List.mem_cons_self
    have hbase : s'.frames.table (slotOf c.page) = f := by
      rw [Frames.table, hentry, baseAddr_tableEntry, Nat.mul_div_cancel _ (by decide),
        Nat.mod_eq_of_lt hfits]
    rw [hbase, hnew, if_pos rfl]
  · intro t ht
    rcases List.mem_cons.mp ht with rfl | ht
    · exact hentry
    · rw [hdirectory, if_neg (hslot t ht)]
      exact hinner.new t ht
  · intro x hx
    have hne : x ≠ slotOf c.page := fun heq => hx _ List.mem_cons_self heq.symm
    rw [hdirectory, if_neg hne]
    exact hinner.directory x fun t ht => hx t (List.mem_cons_of_mem _ ht)
  · intro t ht k hk
    rcases List.mem_cons.mp ht with rfl | ht
    · rw [hnew, if_neg hk, hinner.others f hf hold hframe, take_frames]
    · have hd : t.frame ≠ directoryFrame := fun heq =>
        hapart.fresh t (List.mem_cons_of_mem _ ht) (.inl heq)
      rw [hsame _ hd (hframe t ht)]
      exact hinner.content t ht k hk
  · intro k hk
    rw [hsame _ hapart.table hold.symm]
    exact hinner.inner k hk
  · rw [hsame _ hapart.table hold.symm]
    exact hinner.innermost
  · intro g hd hg hmade
    rw [hsame g hd fun heq => hmade _ List.mem_cons_self heq.symm]
    exact hinner.others g hd hg fun t ht => hmade t (List.mem_cons_of_mem _ ht)
  · intro j hj
    exact ((take_free j).mp (hinner.free j ((hfree j).mp hj))).1
  · intro j hj hnot
    by_cases hji : j = i
    · refine ⟨_, List.mem_cons_self, ?_⟩
      rw [hji, haddr, Nat.mul_div_cancel _ (by decide)]
    · obtain ⟨t, ht, heq⟩ := hinner.took j ((take_free j).mpr ⟨hj, hji⟩) fun h =>
        hnot ((hfree j).mpr h)
      exact ⟨t, List.mem_cons_of_mem _ ht, heq.trans (by rw [take_addr])⟩
  · intro t ht
    rcases List.mem_cons.mp ht with rfl | ht
    · refine ⟨i, firstFree_eq_some hi, fun h => ?_, ?_⟩
      · exact ((take_free i).mp (hinner.free i ((hfree i).mp h))).2 rfl
      · rw [haddr, Nat.mul_div_cancel _ (by decide)]
    · obtain ⟨j, hj, hnot, heq⟩ := hinner.taken t ht
      rw [take_addr] at heq
      exact ⟨j, ((take_free j).mp hj).1, fun h => hnot ((hfree j).mp h), heq⟩

/-- What a call that returns has changed. -/
theorem mapPageWithin_changed (hreach : frameOf s.frames directoryPage = some directoryFrame)
    (htables : ∀ slot, s.frames.HasTable slot →
      frameOf s.frames (tablePage (s.frames.table slot)) = some (s.frames.table slot))
    (hmakes : Makes s (pageOf v) made) (hapart : Apart s ⟨pageOf v, p, flags⟩ made)
    (hlt : v < 4294967296) (hrun : mapPageWithin fuel p v flags s = .ok ((), s')) :
    Changed s s' ⟨pageOf v, p, flags⟩ made := by
  induction fuel generalizing s s' p v flags made with
  | zero => cases hrun
  | succ fuel ih =>
      have hpage : pageOf v < 1048576 := by
        unfold pageOf
        omega
      have haligned := mapPageWithin_aligned hrun
      cases hmakes with
      | nothing hslot =>
          rw [mapPageWithin_present hreach hslot (htables _ hslot) hapart haligned.1 haligned.2
            hlt] at hrun
          cases hrun
          exact changed_mapped hslot hapart
      | @table _ _ i made habsent hi hmakes =>
          obtain ⟨j, u, hj, hinner, hrest⟩ := mapPage_absent_returns hreach hlt habsent hrun
          obtain rfl := Option.some.inj (hj.symm.trans hi)
          have haligned' := (mapPageWithin_aligned hinner).2
          have haddr : s.addr j = s.addr j / 4096 * 4096 :=
            (Nat.div_mul_cancel (Nat.dvd_of_mod_eq_zero haligned')).symm
          generalize s.addr j / 4096 = f at *
          rw [haddr] at hinner hrest
          have hapart' : Apart (s.take j) ⟨tablePage f, f * 4096, F_KERN⟩ made := hapart.inner
          have hinner' : Changed (s.take j) u ⟨tablePage f, f * 4096, F_KERN⟩ made :=
            ih (s := s.take j) hreach htables hmakes hapart' (u32_lt _) hinner
          have hfresh := hapart.fresh _ List.mem_cons_self
          have hslot := hinner'.directory (slotOf (pageOf v)) fun t ht heq =>
            (List.nodup_cons.mp hapart.slots).1 (List.mem_map.mpr ⟨t, ht, heq⟩)
          have hreach' : frameOf u.frames directoryPage = some directoryFrame :=
            hinner'.reaches hmakes hapart' hreach hapart.directory_inner
          have hfits := hapart.fits ⟨pageOf v, f⟩ List.mem_cons_self
          have hf : f ≠ directoryFrame := fun heq => hfresh (.inl heq)
          refine Changed.table hj haddr hmakes hapart hpage hinner' ?_
          refine installed_run hlt hreach' ?_ hfits hf ?_ ?_ hrest
          · rw [hslot]
            by_contra hne
            exact habsent ⟨slotOf_lt hpage, by simpa using hne⟩
          · have hpage' := hinner'.frameOf_page
            rwa [Nat.mul_div_cancel _ (by decide), Nat.mod_eq_of_lt hfits] at hpage'
          · intro heq
            rcases hinner'.table_page hmakes hapart' with hold | ⟨t, ht, hframe⟩
            · exact hfresh (heq ▸ hold)
            · exact (List.nodup_cons.mp hapart.frames).1
                (List.mem_map.mpr ⟨t, ht, hframe.trans heq⟩)

end Changes

/-! ## One translation -/

/-- The walk finds `p` at `v`, for writing, and every other page as before, up to those of the
frames that were taken meanwhile. -/
structure MapsOnePage (s s' : PagingState) (p v : Nat) : Prop where
  page : ∃ user, walk s'.frames (pageOf v) = some ⟨p / 4096, true, user⟩
  others : ∀ w, w < 1048576 → w ≠ pageOf v →
    (∀ i, s.Free i → ¬ s'.Free i → w ≠ tablePage (s.addr i / 4096)) →
    walk s'.frames w = walk s.frames w

/-- What the walk finds at a page whose table holds the entry. -/
def Frames.through (m : Frames) (page entry : Nat) : Mapping :=
  ⟨baseAddr entry, readWrite (m directoryFrame (slotOf page)) && readWrite entry,
    userSupervisor (m directoryFrame (slotOf page)) && userSupervisor entry⟩

/-- The directory entry of the page, if it is there, admits writes. The frames that become tables
hold present entries at most for the pages they are to map, and no directory entry that is there
leads to the directory. A page that shares the innermost entry is mapped as it will be. -/
structure CleanTables (s : PagingState) (c : PageChange) (made : List NewTable) : Prop where
  writable : made = [] → readWrite (s.frames directoryFrame (slotOf c.page)) = true
  clean : ∀ t ∈ made, ∀ k < 1024, k ≠ indexOf t.page → present (s.frames t.frame k) = false
  directory : made ≠ [] → ∀ slot, s.frames.HasTable slot → s.frames.table slot ≠ directoryFrame
  shared : ∀ w < 1048576, w ≠ (c.innermost made).page → s.frames.HasTable (slotOf w) →
    s.frames.table (slotOf w) = s.oldTable c made →
    indexOf w = indexOf (c.innermost made).page →
    walk s.frames w = some (s.frames.through w (mapEntry (c.innermost made).paddr
      (c.innermost made).flags
      (s.frames (s.oldTable c made) (indexOf (c.innermost made).page))))

section Translation

variable {s s' : PagingState} {c : PageChange} {t : NewTable} {made : List NewTable}
  {p v w flags : Nat}

/-- A new table is made for the page, or for the one at which another new table is reached. -/
theorem Makes.page {page : Nat} (h : Makes s page made) :
    ∀ t ∈ made, t.page = page ∨ ∃ t' ∈ made, t.page = tablePage t'.frame := by
  induction h with
  | nothing _ => exact fun t ht => absurd ht List.not_mem_nil
  | table _ _ _ ih =>
      intro t ht
      rcases List.mem_cons.mp ht with rfl | ht
      · exact .inl rfl
      · right
        rcases ih t ht with heq | ⟨t', ht', heq⟩
        · exact ⟨_, List.mem_cons_self, heq⟩
        · exact ⟨t', List.mem_cons_of_mem _ ht', heq⟩

theorem Makes.page_lt {page : Nat} (h : Makes s page made) (hpage : page < 1048576) :
    ∀ t ∈ made, t.page < 1048576 := by
  intro t ht
  rcases h.page t ht with heq | ⟨t', _, heq⟩
  · exact heq ▸ hpage
  · exact heq ▸ tablePage_lt

/-- The page at which a new table is reached needs another one, or is the innermost. -/
theorem Makes.window {page : Nat} (h : Makes s page made) (c : PageChange) : ∀ t ∈ made,
    (∃ t' ∈ made, t'.page = tablePage t.frame) ∨
      (c.innermost made).page = tablePage t.frame := by
  induction h generalizing c with
  | nothing _ => exact fun t ht => absurd ht List.not_mem_nil
  | table _ _ hinner ih =>
      intro t ht
      rcases List.mem_cons.mp ht with rfl | ht
      · cases hinner with
        | nothing _ => exact .inr rfl
        | table _ _ _ => exact .inl ⟨_, List.mem_cons_of_mem _ List.mem_cons_self, rfl⟩
      · rcases ih ⟨tablePage _, _ * 4096, F_KERN⟩ t ht with ⟨t', ht', heq⟩ | heq
        · exact .inl ⟨t', List.mem_cons_of_mem _ ht', heq⟩
        · exact .inr heq

/-- Where a table is made the innermost page is that of a new one. -/
theorem PageChange.innermost_page (c : PageChange) (hmade : made ≠ []) :
    ∃ t ∈ made, (c.innermost made).page = tablePage t.frame := by
  induction made generalizing c with
  | nil => exact absurd rfl hmade
  | cons t made ih =>
      cases made with
      | nil => exact ⟨t, List.mem_cons_self, rfl⟩
      | cons t' made =>
          obtain ⟨t'', ht'', heq⟩ := ih ⟨tablePage t.frame, t.frame * 4096, F_KERN⟩
            (List.cons_ne_nil _ _)
          refine ⟨t'', List.mem_cons_of_mem _ ht'', ?_⟩
          rw [PageChange.innermost]
          exact heq

/-- A page that shares the innermost entry is mapped as this one says. -/
theorem Changed.walk_shared (h : Changed s s' c made) (hmakes : Makes s c.page made)
    (hslot : s.frames.HasTable (slotOf w))
    (htable : s.frames.table (slotOf w) = s.oldTable c made)
    (hindex : indexOf w = indexOf (c.innermost made).page) :
    walk s'.frames w = some (s.frames.through w (mapEntry (c.innermost made).paddr
      (c.innermost made).flags
      (s.frames (s.oldTable c made) (indexOf (c.innermost made).page)))) := by
  have hpde : s'.frames directoryFrame (slotOf w) = s.frames directoryFrame (slotOf w) :=
    h.directory _ fun t ht heq => hmakes.absent t ht (heq ▸ hslot)
  have hentry := h.innermost
  rw [← hindex] at hentry ⊢
  rw [walk_of_present (hpde ▸ hslot.2) ((congrArg baseAddr hpde).trans htable) hentry
    (present_mapEntry ..), hpde]
  rfl

/-- Another page of a new table is mapped as its frame happens to say. -/
theorem Changed.walk_new (h : Changed s s' c made) (hapart : Apart s c made) (ht : t ∈ made)
    (hslot : slotOf w = slotOf t.page) (hindex : indexOf w ≠ indexOf t.page) :
    walk s'.frames w = none ↔ present (s.frames t.frame (indexOf w)) = false := by
  have hfits := hapart.fits t ht
  have hbase : s'.frames.table (slotOf w) = t.frame := by
    rw [hslot, Frames.table, h.new t ht, baseAddr_tableEntry, Nat.mul_div_cancel _ (by decide),
      Nat.mod_eq_of_lt hfits]
  rw [walk_eq_none_iff, hbase, h.content t ht _ hindex, hslot, h.new t ht, present_tableEntry]
  simp

/-- A page whose table is not there is not mapped. -/
theorem Makes.walk_eq_none {page : Nat} (h : Makes s page made) (ht : t ∈ made)
    (hw : w < 1048576) (hslot : slotOf w = slotOf t.page) : walk s.frames w = none := by
  refine walk_eq_none_iff.mpr (.inl ?_)
  by_contra hpresent
  exact h.absent t ht ⟨hslot ▸ slotOf_lt hw, hslot ▸ by simpa using hpresent⟩

/-- A page of which nothing changes. -/
theorem Changed.walk_other (h : Changed s s' c made) (hmakes : Makes s c.page made)
    (hapart : Apart s c made) (hclean : CleanTables s c made) (hw : w < 1048576)
    (hne : w ≠ c.page) (hwindow : ∀ t ∈ made, w ≠ tablePage t.frame) :
    walk s'.frames w = walk s.frames w := by
  by_cases hnew : ∃ t ∈ made, slotOf w = slotOf t.page
  · obtain ⟨t, ht, hslot⟩ := hnew
    have hindex : indexOf w ≠ indexOf t.page := by
      intro hindex
      rcases hmakes.page t ht with heq | ⟨t', ht', heq⟩
      · exact hne ((page_ext hslot hindex).trans heq)
      · exact hwindow t' ht' ((page_ext hslot hindex).trans heq)
    rw [hmakes.walk_eq_none ht hw hslot]
    exact (h.walk_new hapart ht hslot hindex).mpr (hclean.clean t ht _ indexOf_lt hindex)
  · have hslots : ∀ t ∈ made, slotOf t.page ≠ slotOf w := fun t ht heq => hnew ⟨t, ht, heq.symm⟩
    have hinner : w ≠ (c.innermost made).page := by
      intro heq
      cases made with
      | nil => exact hne heq
      | cons t made =>
          obtain ⟨t', ht', hpage⟩ := c.innermost_page (List.cons_ne_nil t made)
          exact hwindow t' ht' (heq.trans hpage)
    by_cases hslot : s.frames.HasTable (slotOf w)
    · by_cases hshared : s.frames.table (slotOf w) = s.oldTable c made ∧
          indexOf w = indexOf (c.innermost made).page
      · rw [h.walk_shared hmakes hslot hshared.1 hshared.2,
          hclean.shared w hw hinner hslot hshared.1 hshared.2]
      · refine h.walk_kept hapart hw hslots (fun hdirectory t ht => ?_) fun htable hindex =>
          hshared ⟨htable, hindex⟩
        exact absurd hdirectory (hclean.directory (List.ne_nil_of_mem ht) _ hslot)
    · have hpresent : present (s.frames directoryFrame (slotOf w)) = false := by
        by_contra hne
        exact hslot ⟨slotOf_lt hw, by simpa using hne⟩
      rw [walk_eq_none_of_absent hpresent,
        walk_eq_none_of_absent ((congrArg present (h.directory _ hslots)).trans hpresent)]

theorem exists_page {slot k : Nat} (hslot : slot < 1024) (hk : k < 1024) :
    ∃ w < 1048576, slotOf w = slot ∧ indexOf w = k := by
  refine ⟨slot * 1024 + k, by omega, ?_, ?_⟩
  · unfold slotOf
    omega
  · unfold indexOf
    omega

/-- A page in a table that was there is not one at which a new table is reached. -/
theorem Makes.ne_window {w : Nat} (hmakes : Makes s c.page made)
    (hslot : s.frames.HasTable (slotOf w)) (hne : w ≠ (c.innermost made).page) :
    ∀ t ∈ made, w ≠ tablePage t.frame := by
  rintro t ht rfl
  rcases hmakes.window c t ht with ⟨t', ht', heq⟩ | heq
  · exact hmakes.absent t' ht' (heq ▸ hslot)
  · exact hne heq.symm

/-- A new table was empty when no other translation changed. -/
theorem Changed.clean_new {k : Nat} (h : Changed s s' c made) (hmakes : Makes s c.page made)
    (hapart : Apart s c made) (hpage : c.page < 1048576)
    (hothers : ∀ w, w < 1048576 → w ≠ c.page → (∀ t ∈ made, w ≠ tablePage t.frame) →
      walk s'.frames w = walk s.frames w)
    (ht : t ∈ made) (hk : k < 1024) (hne : k ≠ indexOf t.page) :
    present (s.frames t.frame k) = false := by
  obtain ⟨w, hw, hslot, rfl⟩ := exists_page (slotOf_lt (hmakes.page_lt hpage t ht)) hk
  have hsame : ∀ t' ∈ made, w ≠ t'.page := by
    rintro t' ht' rfl
    obtain rfl := List.inj_on_of_nodup_map hapart.slots ht' ht hslot
    exact hne rfl
  have hpage' : w ≠ c.page := by
    cases made with
    | nil => cases ht
    | cons t' made => exact hmakes.head ▸ hsame t' List.mem_cons_self
  have hexempt : ∀ t' ∈ made, w ≠ tablePage t'.frame := by
    intro t' ht' heq
    rcases hmakes.window c t' ht' with ⟨t'', ht'', hwindow⟩ | hwindow
    · exact hsame t'' ht'' (heq.trans hwindow.symm)
    · have hlast := hmakes.innermost c rfl
      rw [hwindow, ← heq, hslot] at hlast
      exact hmakes.absent t ht hlast
  have hkept := hothers w hw hpage' hexempt
  rw [hmakes.walk_eq_none ht hw hslot] at hkept
  exact (h.walk_new hapart ht hslot hne).mp hkept

/-- When a call has made a table and changed no other translation, no directory entry led to the
directory. -/
theorem Changed.clean_directory {slot : Nat} (h : Changed s s' c (t :: made))
    (hmakes : Makes s c.page (t :: made)) (hapart : Apart s c (t :: made))
    (hpage : c.page < 1048576)
    (hothers : ∀ w, w < 1048576 → w ≠ c.page → (∀ t' ∈ t :: made, w ≠ tablePage t'.frame) →
      walk s'.frames w = walk s.frames w)
    (hslot : s.frames.HasTable slot) : s.frames.table slot ≠ directoryFrame := by
  intro htable
  have habsent := hmakes.absent t List.mem_cons_self
  rw [hmakes.head] at habsent
  obtain ⟨w, hw, rfl, hindex⟩ := exists_page hslot.1 (slotOf_lt hpage)
  have hinner : w ≠ (c.innermost (t :: made)).page := by
    rintro rfl
    exact hapart.table htable
  have hpage' : w ≠ c.page := by
    rintro rfl
    exact habsent hslot
  have hpde : s'.frames directoryFrame (slotOf w) = s.frames directoryFrame (slotOf w) :=
    h.directory _ fun t' ht' heq => hmakes.absent t' ht' (heq ▸ hslot)
  have hnew := h.new t List.mem_cons_self
  rw [hmakes.head] at hnew
  have hkept := hothers w hw hpage' (hmakes.ne_window hslot hinner)
  -- the entry of this page is the directory entry that has just been made present
  have hnone : walk s.frames w = none := by
    refine walk_eq_none_iff.mpr (.inr ?_)
    rw [htable, hindex]
    by_contra hpresent
    exact habsent ⟨slotOf_lt hpage, by simpa using hpresent⟩
  rw [hnone, walk_eq_none_iff, Frames.table, hpde, hslot.2,
    show baseAddr (s.frames directoryFrame (slotOf w)) = directoryFrame from htable, hindex, hnew,
    present_tableEntry] at hkept
  simp at hkept

/-- A call that changes one translation has found clean tables. -/
theorem Changed.clean (h : Changed s s' c made) (hmakes : Makes s c.page made)
    (hapart : Apart s c made) (hpage : c.page < 1048576)
    (hwritable : ∃ user frame, walk s'.frames c.page = some ⟨frame, true, user⟩)
    (hothers : ∀ w, w < 1048576 → w ≠ c.page → (∀ t ∈ made, w ≠ tablePage t.frame) →
      walk s'.frames w = walk s.frames w) : CleanTables s c made := by
  constructor
  · rintro rfl
    obtain ⟨user, frame, hwalk⟩ := hwritable
    obtain ⟨user', hwalk'⟩ := h.walk_page
    rw [hwalk, h.directory _ fun t ht => absurd ht List.not_mem_nil] at hwalk'
    exact (congrArg Mapping.readWrite (Option.some.inj hwalk')).symm
  · exact fun t ht k hk hne => h.clean_new hmakes hapart hpage hothers ht hk hne
  · intro hmade slot hslot
    obtain ⟨t, made, rfl⟩ := List.exists_cons_of_ne_nil hmade
    exact h.clean_directory hmakes hapart hpage hothers hslot
  · intro w hw hne hslot htable hindex
    have hpage' : w ≠ c.page := by
      rintro rfl
      cases made with
      | nil => exact hne rfl
      | cons t made => exact hmakes.absent t List.mem_cons_self (hmakes.head ▸ hslot)
    rw [← hothers w hw hpage' (hmakes.ne_window hslot hne)]
    exact h.walk_shared hmakes hslot htable hindex

/-- When a call that returns changes one translation. -/
theorem mapsOnePage_iff
    (hreach : frameOf s.frames directoryPage = some directoryFrame)
    (htables : ∀ slot, s.frames.HasTable slot →
      frameOf s.frames (tablePage (s.frames.table slot)) = some (s.frames.table slot))
    (hmakes : Makes s (pageOf v) made) (hapart : Apart s ⟨pageOf v, p, flags⟩ made)
    (hp : p < 4294967296) (hv : v < 4294967296) (hrun : mapPage p v flags s = .ok ((), s')) :
    MapsOnePage s s' p v ↔ CleanTables s ⟨pageOf v, p, flags⟩ made := by
  have hpage : pageOf v < 1048576 := by
    unfold pageOf
    omega
  have h := mapPageWithin_changed hreach htables hmakes hapart hv hrun
  have hexempt : ∀ w, (∀ i, s.Free i → ¬ s'.Free i → w ≠ tablePage (s.addr i / 4096)) ↔
      ∀ t ∈ made, w ≠ tablePage t.frame := by
    intro w
    constructor
    · intro hfree t ht
      obtain ⟨i, hi, hnot, heq⟩ := h.taken t ht
      exact heq ▸ hfree i hi hnot
    · intro hmade i hi hnot
      obtain ⟨t, ht, heq⟩ := h.took i hi hnot
      exact heq ▸ hmade t ht
  constructor
  · intro hmaps
    obtain ⟨user, hwalk⟩ := hmaps.page
    exact h.clean hmakes hapart hpage ⟨user, _, hwalk⟩ fun w hw hne hmade =>
      hmaps.others w hw hne ((hexempt w).mpr hmade)
  · intro hclean
    obtain ⟨user, hwalk⟩ := h.walk_page
    have hwrite : readWrite (s'.frames directoryFrame (slotOf (pageOf v))) = true := by
      cases made with
      | nil =>
          rw [h.directory _ fun t ht => absurd ht List.not_mem_nil]
          exact hclean.writable rfl
      | cons t made =>
          rw [← hmakes.head, h.new t List.mem_cons_self, readWrite_tableEntry]
    have hframe : p / 4096 % 1048576 = p / 4096 := Nat.mod_eq_of_lt (by omega)
    refine ⟨⟨user, ?_⟩, fun w hw hne hfree => ?_⟩
    · rw [hwalk, hwrite, hframe]
    · exact h.walk_other hmakes hapart hclean hw hne ((hexempt w).mp hfree)

end Translation

/-! ## A frame beyond the window -/

/-- The boot state with two free frames. The first one lies beyond the window and holds the same
word everywhere. -/
def farFrame (word : Nat) : PagingState :=
  { blankBoot with
    frames := bootMemory fun f _ => if f = 0x1800 then word else 0
    physicalPageEntries := fun i =>
      if i = 0 then ⟨.free, 0x1800 * 4096⟩
      else if i = 1 then ⟨.free, 0x200 * 4096⟩
      else ⟨.unset, 0⟩ }

section FarFrame

variable {word i : Nat}

theorem farFrame_free : (farFrame word).Free i ↔ i < 2 := by
  unfold PagingState.Free farFrame MAX_PHYS_PAGES
  dsimp only
  split
  · rename_i hi
    subst hi
    exact iff_of_true ⟨by decide, rfl⟩ (by decide)
  · split
    · rename_i hi
      subst hi
      exact iff_of_true ⟨by decide, rfl⟩ (by decide)
    · refine iff_of_false ?_ (by omega)
      rintro ⟨_, htype⟩
      cases htype

theorem farFrame_addr (hi : i < 2) : (farFrame word).addr i = if i = 0 then 0x1800 * 4096
    else 0x200 * 4096 := by
  unfold PagingState.addr farFrame
  dsimp only
  obtain rfl | rfl : i = 0 ∨ i = 1 := by omega
  · rfl
  · rfl

theorem farFrame_frames : (farFrame word).frames
    = bootMemory fun f _ => if f = 0x1800 then word else 0 := by
  simp only [farFrame]

theorem farFrame_hasTable (slot : Nat) :
    (farFrame word).frames.HasTable slot ↔ slot < 6 ∨ 768 ≤ slot ∧ slot < 774 := by
  rw [farFrame_frames]
  exact bootMemory_hasTable _ slot

theorem tables_farFrame : Tables (farFrame word).frames := by
  rw [farFrame_frames]
  exact (paged_bootMemory _).tables

theorem farFrame_isTable (f : Nat) : (farFrame word).frames.IsTable f ↔ BootTable f := by
  rw [farFrame_frames]
  exact bootMemory_isTable _ f

theorem firstFree_farFrame : firstFree (farFrame word).physicalPageEntries = some 0 :=
  firstFree_of_least (farFrame_free.mpr (by decide)) fun _ _ => Nat.zero_le _

theorem firstFree_farFrame_take :
    firstFree ((farFrame word).take 0).physicalPageEntries = some 1 := by
  refine firstFree_of_least ((take_free 1).mpr ⟨farFrame_free.mpr (by decide), by decide⟩) ?_
  intro j hj
  have hne := ((take_free j).mp hj).2
  omega

theorem supplied_farFrame : Supplied (farFrame word) := by
  have haddr : ∀ i, (farFrame word).Free i →
      i = 0 ∧ (farFrame word).addr i = 0x1800 * 4096 ∨
      i = 1 ∧ (farFrame word).addr i = 0x200 * 4096 := by
    intro i hi
    have hlt := farFrame_free.mp hi
    have heq : (farFrame word).addr i = _ := farFrame_addr hlt
    obtain rfl | rfl : i = 0 ∨ i = 1 := by omega
    · exact .inl ⟨rfl, heq⟩
    · exact .inr ⟨rfl, heq⟩
  constructor
  · exact tables_farFrame
  · intro i hi
    rcases haddr i hi with ⟨_, heq⟩ | ⟨_, heq⟩ <;> rw [heq]
  · intro i hi
    rcases haddr i hi with ⟨_, heq⟩ | ⟨_, heq⟩ <;> (rw [heq]; decide)
  · intro i hi
    rw [farFrame_isTable]
    rcases haddr i hi with ⟨_, heq⟩ | ⟨_, heq⟩ <;> (rw [heq]; decide)
  · intro i j hi hj heq
    rcases haddr i hi with ⟨_, h⟩ | ⟨_, h⟩ <;> rcases haddr j hj with ⟨_, h'⟩ | ⟨_, h'⟩ <;> omega

/-- A call for page 0x1800 makes two tables. -/
def farTables : List NewTable := [⟨pageOf 0x1800000, 0x1800⟩, ⟨tablePage 0x1800, 0x200⟩]

theorem farFrame_makes : Makes (farFrame word) (pageOf 0x1800000) farTables := by
  have habsent : ∀ slot, slot = 6 ∨ slot = 774 → ¬ (farFrame word).frames.HasTable slot := by
    intro slot hslot
    rw [farFrame_hasTable]
    omega
  have hfirst : (farFrame word).addr 0 = 0x1800 * 4096 := farFrame_addr (by decide)
  have hsecond : ((farFrame word).take 0).addr 1 = 0x200 * 4096 := by
    rw [take_addr, farFrame_addr (by decide), if_neg (by decide)]
  have hslot : slotOf (pageOf 0x1800000) = 6 := by decide
  have hslot' : slotOf (tablePage 0x1800) = 774 := by decide
  have hlast : Makes (((farFrame word).take 0).take 1) (tablePage 0x200) [] := by
    refine .nothing ?_
    rw [take_frames, take_frames, farFrame_hasTable]
    decide
  have hinner : Makes ((farFrame word).take 0) (tablePage 0x1800) [⟨tablePage 0x1800, 0x200⟩] := by
    refine .of_frame ?_ firstFree_farFrame_take hsecond hlast
    rw [hslot', take_frames]
    exact habsent _ (.inr rfl)
  refine .of_frame ?_ firstFree_farFrame hfirst hinner
  rw [hslot]
  exact habsent _ (.inl rfl)

theorem farTables_innermost (c : PageChange) :
    (c.innermost farTables).page = tablePage 0x200 := rfl

theorem farFrame_oldTable (c : PageChange) : (farFrame word).oldTable c farTables = 0x1400 := by
  have hslot : (farFrame word).frames.HasTable (slotOf (tablePage 0x200)) :=
    (farFrame_hasTable _).mpr (by decide)
  rw [PagingState.oldTable, farTables_innermost]
  rw [farFrame_frames] at hslot ⊢
  rw [bootMemory_table _ hslot]
  decide

theorem farFrame_apart (flags : Nat) :
    Apart (farFrame word) ⟨pageOf 0x1800000, 0x300000, flags⟩ farTables := by
  have htables : ∀ t ∈ farTables, t.frame = 0x1800 ∨ t.frame = 0x200 := by
    intro t ht
    rcases List.mem_cons.mp ht with rfl | ht
    · exact .inl rfl
    · exact .inr (List.mem_singleton.mp ht ▸ rfl)
  constructor
  · intro t ht
    rcases htables t ht with heq | heq <;> (rw [heq]; decide)
  · intro t ht
    rw [farFrame_isTable]
    rcases htables t ht with heq | heq <;> (rw [heq]; decide)
  · decide
  · decide
  · rw [farFrame_oldTable]
    decide
  · rw [farFrame_oldTable, farTables_innermost]
    intro _ hindex
    exact absurd hindex (by decide)
  · rw [farTables_innermost]
    intro _ _
    decide

/-- The call returns: the window has a table for the second frame. -/
theorem farFrame_returns (flags : Nat) :
    ∃ s', mapPage 0x300000 0x1800000 flags (farFrame word) = .ok ((), s') := by
  have hfirst : (farFrame word).windowSlot 0 = 774 := by
    rw [PagingState.windowSlot, farFrame_addr (by decide)]
    decide
  have hsecond : (farFrame word).windowSlot 1 = 768 := by
    rw [PagingState.windowSlot, farFrame_addr (by decide)]
    decide
  have hslot : slotOf (pageOf 0x1800000) = 6 := by decide
  have habsent : ¬ (farFrame word).frames.HasTable (slotOf (pageOf 0x1800000)) := by
    rw [hslot, farFrame_hasTable]
    decide
  have hwindow : ¬ (farFrame word).frames.HasTable ((farFrame word).windowSlot 0) := by
    rw [hfirst, farFrame_hasTable]
    decide
  have hwindow' : (farFrame word).frames.HasTable ((farFrame word).windowSlot 1) := by
    rw [hsecond, farFrame_hasTable]
    decide
  have hne : (farFrame word).windowSlot 0 ≠ slotOf (pageOf 0x1800000) := by
    rw [hfirst, hslot]
    decide
  have hp : 0x300000 % 4096 = 0 := by decide
  obtain ⟨s', hrun, _⟩ : ∃ s', mapPageWithin (4095 + 3) 0x300000 0x1800000 flags (farFrame word)
      = .ok ((), s') ∧ _ :=
    supplied_farFrame.mapPage_two (by decide) hp (by decide) habsent firstFree_farFrame hwindow
      hne firstFree_farFrame_take hwindow' 4095
  exact ⟨s', hrun⟩

end FarFrame

/-! ## When the call changes one translation -/

end NickOS3.Paging
