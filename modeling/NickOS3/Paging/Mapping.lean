import NickOS3.Paging.BasePd

/-!
# How `map_page` returns

The two ways `map_page` returns where the tables are sound: into a table that is there, and
into one that it has made of the next free frame.
-/

namespace NickOS3.Paging

open Foundation Program

section MapPage

variable {s s' : PagingState} {p v flags : Nat}

/-- The table a page needs can be had: it exists and the page is not the one through which it
is reached, or the next free frame can serve. -/
structure Serves (s : PagingState) (page : Nat) : Prop where
  self : s.frames.HasTable (slotOf page) → page ≠ tablePage (s.frames.table (slotOf page))
  fresh : ¬ s.frames.HasTable (slotOf page) → ∀ i, firstFree s.physicalPageEntries = some i →
    s.frames.CanServe (s.addr i)

/-- `map_page` panics on an address that is not aligned. -/
theorem mapPageWithin_aligned {fuel : Nat} (hrun : mapPageWithin fuel p v flags s = .ok ((), s')) :
    v % 4096 = 0 ∧ p % 4096 = 0 := by
  cases fuel with
  | zero => cases hrun
  | succ fuel =>
      by_contra hne
      have hor : v % PGSIZE ≠ 0 ∨ p % 4096 ≠ 0 := by
        unfold PGSIZE
        omega
      rw [mapPageWithin, if_pos hor] at hrun
      cases hrun

theorem mapPage_aligned (hrun : mapPage p v flags s = .ok ((), s')) :
    v % 4096 = 0 ∧ p % 4096 = 0 :=
  mapPageWithin_aligned hrun

/-- A call that returns has changed the entry of its page, in a table that was there or in one
it has made of the next free frame. -/
theorem Tables.mapPage_cases (h : Tables s.frames) (hserves : Serves s (pageOf v))
    (hv : v < 4294967296) (hrun : mapPage p v flags s = .ok ((), s')) :
    s.frames.HasTable (slotOf (pageOf v)) ∧ s' = s.mapped (pageOf v) p flags ∨
    ¬ s.frames.HasTable (slotOf (pageOf v)) ∧ ∃ i, firstFree s.physicalPageEntries = some i ∧
      s.frames.CanServe (s.addr i) ∧
      s' = ((s.take i).withTable (slotOf (pageOf v)) (s.addr i)).mapped (pageOf v) p flags := by
  obtain ⟨hvaligned, hpaligned⟩ := mapPage_aligned hrun
  have hpage : pageOf v < 1048576 := by
    unfold pageOf
    omega
  by_cases hslot : s.frames.HasTable (slotOf (pageOf v))
  · left
    rw [mapPage, h.mapPage_present hvaligned hpaligned hpage hslot (hserves.self hslot)] at hrun
    exact ⟨hslot, (congrArg Prod.snd (Except.ok.inj hrun)).symm⟩
  · right
    cases hfree : firstFree s.physicalPageEntries with
    | none =>
        rw [h.mapPage_noFrame hvaligned hpaligned hpage hslot hfree] at hrun
        cases hrun
    | some i =>
        have hserve := hserves.fresh hslot i hfree
        rw [mapPage, h.mapPage_absent hvaligned hpaligned hpage hslot hfree rfl hserve] at hrun
        exact ⟨hslot, i, rfl, hserve, (congrArg Prod.snd (Except.ok.inj hrun)).symm⟩

end MapPage

/-! ## A table that has just been installed -/

section Fresh

variable {s : PagingState} {slot ptAddr w page p flags : Nat}

/-- Where a new table stands after the call. -/
structure Installed (s u : PagingState) (slot ptAddr : Nat) : Prop where
  tables : Tables u.frames
  hasTable : ∀ x, u.frames.HasTable x ↔ s.frames.HasTable x ∨ x = slot
  directory : ∀ x, u.frames directoryFrame x
    = if x = slot then tableEntry ptAddr (s.frames directoryFrame slot)
      else s.frames directoryFrame x
  table : u.frames.table slot = ptAddr / 4096
  content : u.frames (ptAddr / 4096) = s.frames (ptAddr / 4096)
  walk : ∀ w, w < 1048576 → slotOf w ≠ slot → w ≠ tablePage (ptAddr / 4096) →
    walk u.frames w = Paging.walk s.frames w

theorem Frames.CanServe.installed (hserve : s.frames.CanServe ptAddr) (h : Tables s.frames)
    (hslot : slot < 1024) (habsent : ¬ s.frames.HasTable slot) :
    Installed s (s.withTable slot ptAddr) slot ptAddr := by
  have hlt : ptAddr / 4096 < 1048576 := by
    have := hserve.fits
    omega
  have hapart := h.apart _ hserve.window
  have hframes : (s.withTable slot ptAddr).frames
      = (s.mapped (tablePage (ptAddr / 4096)) ptAddr F_KERN).frames.set directoryFrame slot
        (tableEntry ptAddr (s.frames directoryFrame slot)) := by
    rw [PagingState.withTable, tableInstalled_frames, mapped_frames, directory_set hapart]
  have hbase : baseAddr (tableEntry ptAddr (s.frames directoryFrame slot)) = ptAddr / 4096 := by
    rw [baseAddr_tableEntry, Nat.mod_eq_of_lt hlt]
  refine ⟨hserve.tables h hslot habsent, ?_, ?_, ?_, ?_, ?_⟩
  · intro x
    rw [hframes, hasTable_install hslot (present_tableEntry ..), mapped_frames, hasTable_set hapart]
  · intro x
    rw [hframes, Frames.set_apply]
    by_cases hx : x = slot
    · rw [if_pos ⟨rfl, hx⟩, if_pos hx]
    · rw [if_neg fun heq => hx heq.2, if_neg hx, mapped_frames, directory_set hapart]
  · rw [hframes, table_install, if_pos rfl, hbase]
  · have hne : ptAddr / 4096 ≠ s.frames.table (slotOf (tablePage (ptAddr / 4096))) :=
      fun heq => hserve.fresh _ hserve.window heq.symm
    rw [hframes, mapped_frames]
    exact (Function.update_of_ne hserve.apart _ _).trans (Function.update_of_ne hne _ _)
  · intro w hw hother hwindow
    rw [hframes, walk_set_directory hother, mapped_frames, h.walk_mapped hserve.window hw hwindow]
    intro hpresent
    rw [mapped_frames, table_set hapart]
    rw [mapped_frames, directory_set hapart] at hpresent
    exact h.apart _ ⟨slotOf_lt hw, hpresent⟩

end Fresh

/-- Page 0x400 lies in a table of the boot state, at which it is not reached. -/
theorem blankBoot_serves : Paged blankBoot.frames ∧
    blankBoot.frames.HasTable (slotOf (pageOf 0x400000)) ∧ Serves blankBoot (pageOf 0x400000) := by
  have hframes : blankBoot.frames = bootMemory fun _ _ => 0 := by simp only [blankBoot]
  have hslot : blankBoot.frames.HasTable (slotOf (pageOf 0x400000)) := by
    rw [hframes, bootMemory_hasTable]
    decide
  have htable : blankBoot.frames.table (slotOf (pageOf 0x400000)) = 0x1101 := by
    rw [hframes] at hslot ⊢
    rw [bootMemory_table _ hslot]
    decide
  refine ⟨hframes ▸ paged_bootMemory _, hslot, fun _ => ?_, fun habsent => absurd hslot habsent⟩
  rw [htable]
  decide

theorem blankBoot_mapPage (flags : Nat) : mapPage 0x300000 0x400000 flags blankBoot
    = .ok ((), blankBoot.mapped (pageOf 0x400000) 0x300000 flags) := by
  obtain ⟨hpaged, hslot, hserves⟩ := blankBoot_serves
  exact hpaged.tables.mapPage_present (by decide) (by decide) (by decide) hslot
    (hserves.self hslot)

end NickOS3.Paging
