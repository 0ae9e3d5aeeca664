import NickOS3.Paging.Contiguity
import NickOS3.Paging.Lookup

/-!
# The recursion of `map_page`

A new page table is first mapped at its own page of the kernel's window, which may need a page
table of its own. Each call takes a frame before it calls itself, so the recursion ends; and it
needs one or two frames where the window already has a table for the first or the second one.
-/

namespace NickOS3.Paging

open Foundation Program

/-! ## The recursion ends -/

/-- A program never runs out of its bound on recursion. -/
def Ends {α : Type} (m : PageM α) (s : PagingState) : Prop := m s ≠ .error .diverges

section Ends

variable {α β : Type} {s : PagingState}

theorem Ends.bind {m : PageM α} {f : α → PageM β} (hm : Ends m s)
    (hf : ∀ a s', m s = .ok (a, s') → Ends (f a) s') : Ends (m >>= f) s := by
  unfold Ends at hm ⊢
  cases hrun : m s with
  | error e =>
      rw [bind_run_of_error hrun]
      rw [hrun] at hm
      simpa using hm
  | ok r =>
      rw [bind_run_of_ok hrun]
      exact hf r.1 r.2 hrun

theorem ends_load (vaddr : Nat) : Ends (load vaddr) s := by
  unfold Ends load
  split <;> simp

theorem ends_modify (vaddr : Nat) (f : Nat → Nat) : Ends (modify vaddr f) s := by
  unfold Ends modify
  split <;> simp

theorem ends_setPde (slot ptAddr : Nat) : Ends (setPde slot ptAddr) s :=
  (ends_modify _ _).bind fun _ _ _ => (ends_modify _ _).bind fun _ _ _ => ends_modify _ _

theorem ends_setPte (pt i p flags : Nat) : Ends (setPte pt i p flags) s := by
  refine (ends_modify _ _).bind fun _ _ _ => (ends_modify _ _).bind fun _ _ _ =>
    (ends_modify _ _).bind fun _ s' _ => ?_
  split
  · exact ends_modify _ _
  · unfold Ends
    simp

/-- Each call of `map_page` has one free frame less. -/
theorem ends_mapPageWithin {fuel p v flags : Nat} (h : s.freeEntries.length + 2 ≤ fuel) :
    Ends (mapPageWithin fuel p v flags) s := by
  induction fuel generalizing p v flags s with
  | zero => omega
  | succ fuel ih =>
      rw [mapPageWithin]
      split
      · unfold Ends
        simp
      · refine (ends_load _).bind fun pde s' hload => ?_
        obtain ⟨_, _, _, rfl⟩ := load_frames hload
        refine Ends.bind ?_ fun _ s'' _ => (ends_load _).bind fun _ _ _ => ends_setPte _ _ _ _
        split
        · unfold Ends
          simp
        · refine Ends.bind ?_ fun ptAddr mid hnext => ?_
          · unfold Ends getNextFreePhysicalPage
            split <;> simp
          · refine Ends.bind ?_ fun _ _ _ => (ends_setPde _ _).bind fun _ _ _ => ?_
            · cases hfree : firstFree s'.physicalPageEntries with
              | none =>
                  -- `NO_ADDR` is not aligned
                  rw [getNextFreePhysicalPage_none hfree] at hnext
                  cases hnext
                  obtain ⟨k, rfl⟩ : ∃ k, fuel = k + 1 := ⟨fuel - 1, by omega⟩
                  rw [Ends, mapPageWithin, if_pos (.inr (by decide))]
                  simp
              | some i =>
                  rw [getNextFreePhysicalPage_run hfree] at hnext
                  cases hnext
                  apply ih
                  rw [freeEntries_take hfree, List.length_cons] at h
                  omega
            · unfold Ends recordInstalled
              simp

/-- `map_page` returns, panics or touches a page that is not mapped. -/
theorem mapPage_ends (p v flags : Nat) : Ends (mapPage p v flags) s :=
  ends_mapPageWithin (Nat.add_le_add_right (length_freeEntries_le s) 2)

end Ends

/-! ## What a call adds -/

/-- The page tables are sound, and the free entries name different frames that are none. -/
structure Supplied (s : PagingState) : Prop where
  tables : Tables s.frames
  aligned : ∀ i, s.Free i → s.addr i % 4096 = 0
  fits : ∀ i, s.Free i → s.addr i < 4294967296
  fresh : ∀ i, s.Free i → ¬ s.frames.IsTable (s.addr i / 4096)
  distinct : ∀ i j, s.Free i → s.Free j → s.addr i = s.addr j → i = j

/-- Frames at some addresses have been taken and have become the tables of some entries of the
directory. -/
structure Extends (s s' : PagingState) (taken slots : List Nat) : Prop where
  tables : Tables s'.frames
  hasTable : ∀ slot, s'.frames.HasTable slot ↔ s.frames.HasTable slot ∨ slot ∈ slots
  isTable : ∀ f, s'.frames.IsTable f ↔ s.frames.IsTable f ∨ ∃ a ∈ taken, f = a / 4096
  content : ∀ f, ¬ s'.frames.IsTable f → s'.frames f = s.frames f
  source : ∀ a ∈ taken, ∃ i, s.Free i ∧ s.addr i = a
  free : ∀ i, s'.Free i ↔ s.Free i ∧ s.addr i ∉ taken
  addr : ∀ i, s'.addr i = s.addr i
  returned : s'.returned = taken ++ s.returned

section Extends

variable {s s' : PagingState} {taken slots : List Nat} {i p v flags : Nat}

theorem Supplied.take (h : Supplied s) (i : Nat) : Supplied (s.take i) := by
  constructor
  · exact h.tables
  · intro j hj
    rw [take_addr]
    exact h.aligned j ((take_free j).mp hj).1
  · intro j hj
    rw [take_addr]
    exact h.fits j ((take_free j).mp hj).1
  · intro j hj
    rw [take_addr]
    exact h.fresh j ((take_free j).mp hj).1
  · intro j k hj hk heq
    rw [take_addr, take_addr] at heq
    exact h.distinct j k ((take_free j).mp hj).1 ((take_free k).mp hk).1 heq

theorem Supplied.extends (h : Supplied s) (hs : Extends s s' taken slots) : Supplied s' := by
  constructor
  · exact hs.tables
  · intro i hi
    rw [hs.addr]
    exact h.aligned i ((hs.free i).mp hi).1
  · intro i hi
    rw [hs.addr]
    exact h.fits i ((hs.free i).mp hi).1
  · intro i hi htable
    obtain ⟨hfree, hnot⟩ := (hs.free i).mp hi
    rw [hs.addr] at htable
    rcases (hs.isTable _).mp htable with hold | ⟨a, ha, heq⟩
    · exact h.fresh i hfree hold
    · obtain ⟨j, hj, rfl⟩ := hs.source a ha
      exact hnot (frame_injective (h.aligned i hfree) (h.aligned j hj) heq ▸ ha)
  · intro i j hi hj heq
    rw [hs.addr, hs.addr] at heq
    exact h.distinct i j ((hs.free i).mp hi).1 ((hs.free j).mp hj).1 heq

/-- The pages at which tables are reached are mapped. -/
theorem Frames.OwnPage.hasTable {m : Frames} {page : Nat} (h : m.OwnPage page) (hm : Tables m) :
    m.HasTable (slotOf page) := by
  rcases h with rfl | ⟨slot, hslot, rfl⟩
  · exact hasTable_of_frameOf (by decide) hm.directory
  · exact hasTable_of_frameOf tablePage_lt (hm.reachable slot hslot)

/-- The page of the window for a frame that is no table. -/
theorem Frames.not_ownPage_tablePage {m : Frames} {t : Nat} (hlt : t < 1048576)
    (hfresh : ¬ m.IsTable t) : ¬ m.OwnPage (tablePage t) := by
  rintro (hdirectory | ⟨slot, hslot, heq⟩)
  · rw [directoryPage_eq] at hdirectory
    exact hfresh (.inl (tablePage_injective hlt (by decide) hdirectory))
  · exact hfresh (.inr ⟨slot, hslot, (tablePage_injective hlt (table_lt _ _) heq).symm⟩)

/-- A call for a page that has its table. -/
theorem Tables.extends_mapped (h : Tables s.frames) (hslot : s.frames.HasTable (slotOf (pageOf v)))
    (hown : ¬ s.frames.OwnPage (pageOf v)) : Extends s (s.mapped (pageOf v) p flags) [] [] := by
  have hapart := h.apart _ hslot
  constructor
  · exact h.set_entry hslot hown
  · intro slot
    rw [mapped_frames, hasTable_set hapart]
    simp
  · intro f
    rw [mapped_frames, isTable_set hapart]
    simp
  · intro f hf
    rw [mapped_frames, isTable_set hapart] at hf
    have hne : f ≠ s.frames.table (slotOf (pageOf v)) := by
      rintro rfl
      exact hf (.inr ⟨_, hslot, rfl⟩)
    exact Function.update_of_ne hne _ _
  · exact fun a ha => absurd ha List.not_mem_nil
  · intro i
    simp [PagingState.Free, PagingState.mapped, PagingState.set]
  · exact fun i => rfl
  · rfl

theorem Tables.mapPage_extends (h : Tables s.frames) (hv : v % 4096 = 0) (hp : p % 4096 = 0)
    (hlt : v < 4294967296) (hslot : s.frames.HasTable (slotOf (pageOf v)))
    (hown : ¬ s.frames.OwnPage (pageOf v)) (fuel : Nat) :
    mapPageWithin (fuel + 1) p v flags s = .ok ((), s.mapped (pageOf v) p flags) ∧
      Extends s (s.mapped (pageOf v) p flags) [] [] ∧
      frameOf (s.mapped (pageOf v) p flags).frames (pageOf v) = some (p / 4096 % 1048576) := by
  refine ⟨h.mapPage_present hv hp ?_ hslot fun heq => hown (.inr ⟨_, hslot, heq⟩),
    h.extends_mapped hslot hown, h.frameOf_mapped hslot⟩
  unfold pageOf
  omega

theorem Extends.trans {t : PagingState} {taken' slots' : List Nat} (h : Extends s t taken slots)
    (h' : Extends t s' taken' slots') : Extends s s' (taken' ++ taken) (slots' ++ slots) := by
  have hmem : ∀ a, a ∈ taken' ++ taken ↔ a ∈ taken ∨ a ∈ taken' := by
    intro a
    rw [List.mem_append, or_comm]
  constructor
  · exact h'.tables
  · intro slot
    rw [h'.hasTable, h.hasTable, List.mem_append, or_assoc, or_comm (a := slot ∈ slots)]
  · intro f
    rw [h'.isTable, h.isTable]
    constructor
    · rintro ((hold | ⟨a, ha, heq⟩) | ⟨a, ha, heq⟩)
      · exact .inl hold
      · exact .inr ⟨a, (hmem a).mpr (.inl ha), heq⟩
      · exact .inr ⟨a, (hmem a).mpr (.inr ha), heq⟩
    · rintro (hold | ⟨a, ha, heq⟩)
      · exact .inl (.inl hold)
      · rcases (hmem a).mp ha with ha | ha
        · exact .inl (.inr ⟨a, ha, heq⟩)
        · exact .inr ⟨a, ha, heq⟩
  · intro f hf
    rw [h'.content f hf, h.content f fun hold => hf ((h'.isTable f).mpr (.inl hold))]
  · intro a ha
    rcases (hmem a).mp ha with ha | ha
    · exact h.source a ha
    · obtain ⟨j, hj, haddr⟩ := h'.source a ha
      exact ⟨j, ((h.free j).mp hj).1, (h.addr j).symm.trans haddr⟩
  · intro j
    rw [h'.free, h.free, h.addr, hmem, not_or, and_assoc]
  · intro j
    rw [h'.addr, h.addr]
  · rw [h'.returned, h.returned, List.append_assoc]

/-- The frame that was taken first becomes a table after those that its page has needed. -/
theorem Supplied.extends_installed {u : PagingState} {slot : Nat} (h : Supplied s) (hi : s.Free i)
    (hext : Extends (s.take i) u taken slots) (hslot : slot < 1024)
    (habsent : ¬ u.frames.HasTable slot)
    (htables : Tables (u.tableInstalled slot (s.addr i)).frames) :
    Extends s (u.tableInstalled slot (s.addr i)) (taken ++ [s.addr i]) (slot :: slots) := by
  have hbase : baseAddr (tableEntry (s.addr i) (u.frames directoryFrame slot)) =
      s.addr i / 4096 := by
    have hfits := h.fits i hi
    rw [baseAddr_tableEntry]
    omega
  have hisTable : ∀ f, (u.tableInstalled slot (s.addr i)).frames.IsTable f ↔
      u.frames.IsTable f ∨ f = s.addr i / 4096 := by
    intro f
    rw [tableInstalled_frames, isTable_install hslot habsent (present_tableEntry ..), hbase]
  constructor
  · exact htables
  · intro x
    rw [tableInstalled_frames, hasTable_install hslot (present_tableEntry ..), hext.hasTable,
      take_frames, List.mem_cons, or_assoc, or_comm (a := x ∈ slots)]
  · intro f
    rw [hisTable, hext.isTable, take_frames, or_assoc]
    refine or_congr_right ⟨?_, ?_⟩
    · rintro (⟨a, ha, heq⟩ | heq)
      · exact ⟨a, List.mem_append_left _ ha, heq⟩
      · exact ⟨s.addr i, List.mem_append_right _ (List.mem_singleton.mpr rfl), heq⟩
    · rintro ⟨a, ha, heq⟩
      rcases List.mem_append.mp ha with ha | ha
      · exact .inl ⟨a, ha, heq⟩
      · exact .inr (List.mem_singleton.mp ha ▸ heq)
  · intro f hf
    rw [hisTable, not_or] at hf
    have hne : f ≠ directoryFrame := fun heq => hf.1 (.inl heq)
    exact (Function.update_of_ne hne _ _).trans (hext.content f hf.1)
  · intro a ha
    rcases List.mem_append.mp ha with ha | ha
    · obtain ⟨j, hj, haddr⟩ := hext.source a ha
      exact ⟨j, ((take_free j).mp hj).1, (take_addr j).symm.trans haddr⟩
    · exact ⟨i, hi, (List.mem_singleton.mp ha).symm⟩
  · intro j
    have hfree : (u.tableInstalled slot (s.addr i)).Free j ↔ u.Free j := Iff.rfl
    rw [hfree, hext.free, take_free, take_addr, List.mem_append, List.mem_singleton, not_or,
      and_assoc]
    refine and_congr_right fun hj => ?_
    have hsame : j ≠ i ↔ ¬ s.addr j = s.addr i := by
      refine not_congr ⟨fun heq => by rw [heq], fun heq => h.distinct j i hj hi heq⟩
    rw [hsame, and_comm]
  · intro j
    exact (hext.addr j).trans (take_addr j)
  · have hreturned : (u.tableInstalled slot (s.addr i)).returned = u.returned := rfl
    rw [hreturned, hext.returned, List.append_assoc]
    rfl

/-- A call for a page without a table, from the call for the frame of the new one. -/
theorem Supplied.mapPage_through {fuel : Nat} {u : PagingState} (h : Supplied s)
    (hv : v % 4096 = 0) (hp : p % 4096 = 0) (hlt : v < 4294967296)
    (habsent : ¬ s.frames.HasTable (slotOf (pageOf v)))
    (hfree : firstFree s.physicalPageEntries = some i)
    (hinner : mapPageWithin fuel (s.addr i) (kptov (s.addr i)) F_KERN (s.take i) = .ok ((), u))
    (hext : Extends (s.take i) u taken slots) (hslots : slotOf (pageOf v) ∉ slots)
    (hreach : frameOf u.frames (tablePage (s.addr i / 4096)) = some (s.addr i / 4096)) :
    ∃ s', mapPageWithin (fuel + 1) p v flags s = .ok ((), s') ∧
      Extends s s' (taken ++ [s.addr i]) (slotOf (pageOf v) :: slots) ∧
      frameOf s'.frames (pageOf v) = some (p / 4096 % 1048576) := by
  have hi := firstFree_eq_some hfree
  have hfits := h.fits i hi
  have hpage : pageOf v < 1048576 := by
    unfold pageOf
    omega
  have habsent' : ¬ u.frames.HasTable (slotOf (pageOf v)) := by
    rw [hext.hasTable, not_or]
    exact ⟨habsent, hslots⟩
  have hnew : ¬ u.frames.IsTable (s.addr i / 4096) := by
    rw [hext.isTable, not_or]
    refine ⟨h.fresh i hi, ?_⟩
    rintro ⟨a, ha, heq⟩
    obtain ⟨j, hj, haddr⟩ := hext.source a ha
    obtain ⟨hj, hne⟩ := (take_free j).mp hj
    rw [take_addr] at haddr
    refine hne (h.distinct j i hj hi (frame_injective (h.aligned j hj) (h.aligned i hi) ?_))
    rw [haddr, heq]
  have hthrough : Tables (u.tableInstalled (slotOf (pageOf v)) (s.addr i)).frames ∧
      mapPageWithin (fuel + 1) p v flags s = _ :=
    h.tables.mapPage_through hv hp hpage habsent hfree rfl hinner hext.tables habsent' hfits
      (fun heq => hnew (.inl heq)) (fun slot hslot heq => hnew (.inr ⟨slot, hslot, heq⟩)) hreach
  obtain ⟨htables, hrun⟩ := hthrough
  have hinstalled := h.extends_installed hi hext (slotOf_lt hpage) habsent' htables
  have hslot := (hinstalled.hasTable (slotOf (pageOf v))).mpr (.inr List.mem_cons_self)
  have hown : ¬ (u.tableInstalled (slotOf (pageOf v)) (s.addr i)).frames.OwnPage (pageOf v) := by
    -- the pages of all tables, the new one too, have been mapped before
    rintro (hdirectory | ⟨slot, hslot, heq⟩)
    · rw [hdirectory] at habsent'
      exact habsent' (hasTable_of_frameOf (by decide) hext.tables.directory)
    · rw [tableInstalled_frames, table_install] at heq
      rw [tableInstalled_frames, hasTable_install (slotOf_lt hpage)
        (present_tableEntry ..)] at hslot
      split at heq
      · rw [baseAddr_tableEntry, Nat.mod_eq_of_lt (by omega)] at heq
        rw [heq] at habsent'
        exact habsent' (hasTable_of_frameOf tablePage_lt hreach)
      · rename_i hother
        rw [heq] at habsent'
        exact habsent' (hasTable_of_frameOf tablePage_lt
          (hext.tables.reachable slot (hslot.resolve_right hother)))
  exact ⟨_, hrun, hinstalled.trans (htables.extends_mapped hslot hown),
    htables.frameOf_mapped hslot⟩

end Extends

/-! ## One or two frames -/

/-- The directory entry for the page at which the kernel reaches the frame of a free entry. -/
def PagingState.windowSlot (s : PagingState) (i : Nat) : Nat := slotOf (tablePage (s.addr i / 4096))

/-- The page has a table, or the window has one for the first free frame, or for the second one
when the first needs another entry of the directory than the page. -/
def RecursionFits (s : PagingState) (v : Nat) : Prop :=
  s.frames.HasTable (slotOf (pageOf v)) ∨ ∀ i, firstFree s.physicalPageEntries = some i →
    s.frames.HasTable (s.windowSlot i) ∨ s.windowSlot i ≠ slotOf (pageOf v) ∧
      ∀ j, firstFree (s.take i).physicalPageEntries = some j → s.frames.HasTable (s.windowSlot j)

/-- The call returns, has taken at most two frames, and each of them is a page table. -/
def RecursionBounded (s : PagingState) (p v flags : Nat) : Prop :=
  ∃ s' taken, mapPage p v flags s = .ok ((), s') ∧ s'.returned = taken ++ s.returned ∧
    taken.length ≤ 2 ∧
      ∀ a ∈ taken, ∃ slot, s'.frames.HasTable slot ∧ s'.frames.table slot = a / 4096

section Bounded

variable {s s' : PagingState} {i j p v flags : Nat}

/-- The window has a table for the first free frame. -/
theorem Supplied.mapPage_one (h : Supplied s) (hv : v % 4096 = 0) (hp : p % 4096 = 0)
    (hlt : v < 4294967296) (habsent : ¬ s.frames.HasTable (slotOf (pageOf v)))
    (hi : firstFree s.physicalPageEntries = some i) (hwindow : s.frames.HasTable (s.windowSlot i))
    (fuel : Nat) : ∃ s', mapPageWithin (fuel + 2) p v flags s = .ok ((), s') ∧
      Extends s s' [s.addr i] [slotOf (pageOf v)] ∧
      frameOf s'.frames (pageOf v) = some (p / 4096 % 1048576) := by
  have hfree := firstFree_eq_some hi
  have haligned := h.aligned i hfree
  have hfits := h.fits i hfree
  have hpage := pageOf_kptov haligned
  have hslot : (s.take i).frames.HasTable (slotOf (pageOf (kptov (s.addr i)))) := by
    rw [hpage]
    exact hwindow
  have hown : ¬ (s.take i).frames.OwnPage (pageOf (kptov (s.addr i))) := by
    rw [hpage]
    exact Frames.not_ownPage_tablePage (by omega) (h.fresh i hfree)
  obtain ⟨hrun, hext, hreach⟩ :
      mapPageWithin (fuel + 1) (s.addr i) (kptov (s.addr i)) F_KERN (s.take i) = _ ∧ _ :=
    (h.take i).tables.mapPage_extends (kptov_aligned haligned) haligned (u32_lt _) hslot hown fuel
  rw [hpage, Nat.mod_eq_of_lt (by omega)] at hreach
  rw [hpage] at hrun hext
  exact h.mapPage_through hv hp hlt habsent hi hrun hext List.not_mem_nil hreach

/-- The window has one for the second, and then one for the first. -/
theorem Supplied.mapPage_two (h : Supplied s) (hv : v % 4096 = 0) (hp : p % 4096 = 0)
    (hlt : v < 4294967296) (habsent : ¬ s.frames.HasTable (slotOf (pageOf v)))
    (hi : firstFree s.physicalPageEntries = some i) (hwindow : ¬ s.frames.HasTable (s.windowSlot i))
    (hne : s.windowSlot i ≠ slotOf (pageOf v))
    (hj : firstFree (s.take i).physicalPageEntries = some j)
    (hwindow' : s.frames.HasTable (s.windowSlot j)) (fuel : Nat) :
    ∃ s', mapPageWithin (fuel + 3) p v flags s = .ok ((), s') ∧
      Extends s s' [s.addr j, s.addr i] [slotOf (pageOf v), s.windowSlot i] := by
  have hfree := firstFree_eq_some hi
  have haligned := h.aligned i hfree
  have hfits := h.fits i hfree
  have hpage := pageOf_kptov haligned
  have habsent' : ¬ (s.take i).frames.HasTable (slotOf (pageOf (kptov (s.addr i)))) := by
    rw [hpage]
    exact hwindow
  have hwindow'' : (s.take i).frames.HasTable ((s.take i).windowSlot j) := by
    rw [PagingState.windowSlot, take_addr]
    exact hwindow'
  obtain ⟨u, hrun, hext, hreach⟩ := (h.take i).mapPage_one (kptov_aligned haligned) haligned
    (u32_lt _) habsent' hj hwindow'' fuel
  rw [take_addr, hpage] at hext
  rw [hpage, Nat.mod_eq_of_lt (by omega)] at hreach
  have hslots : slotOf (pageOf v) ∉ [slotOf (tablePage (s.addr i / 4096))] := by
    rw [List.mem_singleton]
    exact hne.symm
  obtain ⟨s', hrun', hext', _⟩ := h.mapPage_through hv hp hlt habsent hi hrun hext hslots hreach
  exact ⟨s', hrun', hext'⟩

/-- A write at a page that is mapped. -/
theorem modify_returns {vaddr : Nat} (h : walk s.frames (pageOf vaddr) ≠ none) (f : Nat → Nat) :
    ∃ g, modify vaddr f s = .ok ((), s.set g (wordOf vaddr) (f (s.frames g (wordOf vaddr)))) := by
  obtain ⟨mapping, hwalk⟩ := Option.ne_none_iff_exists'.mp h
  refine ⟨mapping.frame, ?_⟩
  rw [Paging.modify, hwalk]

/-- Where entries only become present, and the directory keeps its addresses. -/
theorem walk_ne_none_of_present {m m' : Frames} {page : Nat}
    (hbase : baseAddr (m' directoryFrame (slotOf page)) = baseAddr (m directoryFrame (slotOf page)))
    (hpresent : ∀ f i, present (m f i) = true → present (m' f i) = true)
    (h : walk m page ≠ none) : walk m' page ≠ none := by
  rw [ne_eq, walk_eq_none_iff, not_or, Bool.not_eq_false, Bool.not_eq_false] at h ⊢
  refine ⟨hpresent _ _ h.1, ?_⟩
  rw [Frames.table, hbase]
  exact hpresent _ _ h.2

/-- A write that sets bits of a word leaves its page mapped. -/
theorem modify_returns_mapped {vaddr : Nat} {f : Nat → Nat}
    (h : walk s.frames (pageOf vaddr) ≠ none)
    (hbase : ∀ word, baseAddr (f word) = baseAddr word)
    (hpresent : ∀ word, present word = true → present (f word) = true) :
    ∃ s', modify vaddr f s = .ok ((), s') ∧ s'.returned = s.returned ∧
      walk s'.frames (pageOf vaddr) ≠ none := by
  obtain ⟨g, hrun⟩ := modify_returns h f
  refine ⟨_, hrun, rfl, walk_ne_none_of_present ?_ ?_ h⟩
  · rw [set_frames, Frames.set_apply]
    split
    · rename_i heq
      rw [hbase, heq.1, heq.2]
    · rfl
  · intro f' i' hold
    rw [set_frames, Frames.set_apply]
    split
    · rename_i heq
      rw [heq.1, heq.2] at hold
      exact hpresent _ hold
    · exact hold

/-- A call for a page that has a table returns, even where the page is the one at which the
table is reached. -/
theorem Tables.mapPage_returns (h : Tables s.frames) (hv : v % 4096 = 0) (hp : p % 4096 = 0)
    (hlt : v < 4294967296) (hslot : s.frames.HasTable (slotOf (pageOf v))) (fuel : Nat) :
    ∃ s', mapPageWithin (fuel + 1) p v flags s = .ok ((), s') ∧ s'.returned = s.returned := by
  have hpage : pageOf v < 1048576 := by
    unfold pageOf
    omega
  have hload := h.load_pde hpage
  have hindex : indexOf (pageOf v) < 1024 := indexOf_lt
  rw [mapPageWithin, if_neg (by simp [PGSIZE, hv, hp]), bind_run_of_ok hload, if_pos hslot.2,
    bind_run_of_ok (pure_run ()), bind_run_of_ok hload, ptNo_eq]
  generalize ht : baseAddr (s.frames directoryFrame (slotOf (pageOf v))) = t
  have hreach : frameOf s.frames (pageOf (pteAddr (kptov (t * 4096)) (indexOf (pageOf v)))) =
      some t := by
    rw [pageOf_pteAddr hindex, ← ht]
    exact h.reachable _ hslot
  have hmapped :
      walk s.frames (pageOf (pteAddr (kptov (t * 4096)) (indexOf (pageOf v)))) ≠ none := by
    intro hnone
    rw [frameOf, hnone] at hreach
    cases hreach
  have hapart : t ≠ directoryFrame := ht ▸ h.apart _ hslot
  have hfirst := modify_run hreach (setBaseAddr (p / 4096))
  generalize hu : s.set t _ _ = u at hfirst
  have hmapped' :
      walk u.frames (pageOf (pteAddr (kptov (t * 4096)) (indexOf (pageOf v)))) ≠ none := by
    refine walk_ne_none_of_present ?_ ?_ hmapped
    · rw [← hu, set_frames, directory_set hapart]
    · intro f i hold
      rw [← hu, set_frames, Frames.set_apply]
      split
      · rename_i heq
        rw [heq.1, heq.2] at hold
        rw [present_setBaseAddr]
        exact hold
      · exact hold
  have hreturned : u.returned = s.returned := by
    rw [← hu]
    rfl
  obtain ⟨u₁, hrun₁, hreturned₁, hmapped₁⟩ := modify_returns_mapped (f := setPresent) hmapped'
    (by simp) (by simp)
  obtain ⟨u₂, hrun₂, hreturned₂, hmapped₂⟩ := modify_returns_mapped (f := setReadWrite) hmapped₁
    (by simp) (by simp)
  rw [setPte, bind_run_of_ok hfirst, bind_run_of_ok hrun₁, bind_run_of_ok hrun₂]
  split
  · obtain ⟨u₃, hrun₃, hreturned₃, _⟩ := modify_returns_mapped (f := setUserSupervisor) hmapped₂
      (by simp) (by simp)
    exact ⟨u₃, hrun₃, by rw [hreturned₃, hreturned₂, hreturned₁, hreturned]⟩
  · exact ⟨u₂, rfl, by rw [hreturned₂, hreturned₁, hreturned]⟩

/-- Two physical frames are free. -/
def TwoFree (s : PagingState) : Prop := ∃ i j, i ≠ j ∧ s.Free i ∧ s.Free j

theorem TwoFree.firstFree (h : TwoFree s) : ∃ i j, firstFree s.physicalPageEntries = some i ∧
    firstFree (s.take i).physicalPageEntries = some j := by
  obtain ⟨a, b, hne, ha, hb⟩ := h
  cases hi : Paging.firstFree s.physicalPageEntries with
  | none => exact absurd ha (firstFree_eq_none hi a)
  | some i =>
      cases hj : Paging.firstFree (s.take i).physicalPageEntries with
      | none =>
          by_cases hai : a = i
          · exact absurd ((take_free b).mpr ⟨hb, fun hbi => hne (hai.trans hbi.symm)⟩)
              (firstFree_eq_none hj b)
          · exact absurd ((take_free a).mpr ⟨ha, hai⟩) (firstFree_eq_none hj a)
      | some j => exact ⟨i, j, rfl, hj⟩

/-- What a call that adds at most two tables has done. -/
theorem Extends.bounded {taken slots : List Nat} (hs : Supplied s)
    (h : Extends s s' taken slots) (hlength : taken.length ≤ 2)
    (hrun : mapPage p v flags s = .ok ((), s')) : RecursionBounded s p v flags := by
  refine ⟨s', taken, hrun, h.returned, hlength, fun a ha => ?_⟩
  obtain ⟨i, hi, rfl⟩ := h.source a ha
  rcases (h.isTable _).mpr (.inr ⟨_, ha, rfl⟩) with heq | htable
  · exact absurd (.inl heq) (hs.fresh i hi)
  · exact htable

theorem Supplied.bounded (h : Supplied s) (htwo : TwoFree s) (hv : v % 4096 = 0)
    (hp : p % 4096 = 0) (hlt : v < 4294967296) (hfits : RecursionFits s v) :
    RecursionBounded s p v flags := by
  by_cases hslot : s.frames.HasTable (slotOf (pageOf v))
  · obtain ⟨s', hrun, hreturned⟩ := h.tables.mapPage_returns hv hp hlt hslot (MAX_PHYS_PAGES + 1)
    exact ⟨s', [], hrun, hreturned, by simp, fun a ha => absurd ha List.not_mem_nil⟩
  · obtain ⟨i, j, hi, hj⟩ := htwo.firstFree
    by_cases hwindow : s.frames.HasTable (s.windowSlot i)
    · obtain ⟨s', hrun, hext, _⟩ := h.mapPage_one hv hp hlt hslot hi hwindow MAX_PHYS_PAGES
      exact hext.bounded h (by simp) hrun
    · obtain ⟨hne, hsecond⟩ := (hfits.resolve_left hslot i hi).resolve_left hwindow
      obtain ⟨s', hrun, hext⟩ := h.mapPage_two hv hp hlt hslot hi hwindow hne hj (hsecond j hj) 4095
      exact hext.bounded h (by simp) hrun

end Bounded

end NickOS3.Paging
