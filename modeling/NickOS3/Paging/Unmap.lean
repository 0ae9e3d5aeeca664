import NickOS3.Paging.Mapping

/-!
# Unmapping a page

`unmap_page` tests `!(int)vaddr % 4096`, which is false for every address but 0: it rejects
page 0 and no address that is not aligned. For the other addresses it clears the present bit
of the entry that it reaches, and what that does to the translations depends on which walks
read the entry.
-/

namespace NickOS3.Paging

open Foundation Program

/-- `!(int)vaddr % 4096`; the negation is taken first. -/
def alignmentTest (vaddr : Nat) : Nat := (if vaddr = 0 then 1 else 0) % 4096

/-- `unmap_page`; without `F_KERN` it ends without a return statement. -/
def unmapPage (vaddr flags : Nat) : PageM (Option Bool) :=
  if alignmentTest vaddr ≠ 0 then pure (some false)
  else if fKern flags then do
    let pde ← load (pdeAddr (pdNo vaddr))
    if present pde = false then pure (some true)
    else do
      let pde ← load (pdeAddr (pdNo vaddr))
      modify (pteAddr (kptov (baseAddr pde * 4096)) (ptNo vaddr)) clearPresent
      pure (some true)
  else pure none

/-- What `unmap_page(v, F_KERN)` is for: an address that is not aligned is rejected without a
change, and otherwise the page of `v` is no longer translated and the others are as before. -/
def UnmapsPage (s : PagingState) (v : Nat)
    (result : Except Fault (Option Bool × PagingState)) : Prop :=
  if v % 4096 ≠ 0 then result = .ok (some false, s)
  else ∃ s', result = .ok (some true, s') ∧ walk s'.frames (pageOf v) = none ∧
    ∀ page < 1048576, page ≠ pageOf v → walk s'.frames page = walk s.frames page

/-! ## Which walks read a word -/

/-- A page is translated, and its walk reads a word. -/
def Frames.Uses (m : Frames) (page frame index : Nat) : Prop :=
  walk m page ≠ none ∧ (directoryFrame = frame ∧ slotOf page = index ∨
    m.table (slotOf page) = frame ∧ indexOf page = index)

/-- The present bit of a word is cleared. -/
def Frames.clear (m : Frames) (frame index : Nat) : Frames :=
  m.set frame index (clearPresent (m frame index))

section Clear

variable {m : Frames} {frame index page : Nat}

@[simp] theorem baseAddr_clear (f i : Nat) :
    baseAddr (m.clear frame index f i) = baseAddr (m f i) := by
  rw [Frames.clear, Frames.set_apply]
  split
  · rename_i h
    rw [baseAddr_clearPresent, h.1, h.2]
  · rfl

theorem present_clear_self : present (m.clear frame index frame index) = false := by
  rw [Frames.clear, Frames.set_self, present_clearPresent]

theorem clear_of_ne {f i : Nat} (h : ¬ (f = frame ∧ i = index)) :
    m.clear frame index f i = m f i := by
  rw [Frames.clear, Frames.set_apply, if_neg h]

theorem present_of_clear {f i : Nat} (h : present (m.clear frame index f i) = true) :
    present (m f i) = true := by
  by_cases heq : f = frame ∧ i = index
  · obtain ⟨rfl, rfl⟩ := heq
    rw [present_clear_self] at h
    cases h
  · rwa [clear_of_ne heq] at h

/-- The pages whose walks use a word are those that lose their translation with it. -/
theorem walk_clear : walk (m.clear frame index) page = none ∧ m.Uses page frame index ∨
    walk (m.clear frame index) page = walk m page ∧ ¬ m.Uses page frame index := by
  have htable : (m.clear frame index).table (slotOf page) = m.table (slotOf page) :=
    baseAddr_clear _ _
  by_cases huses : m.Uses page frame index
  · refine Or.inl ⟨walk_eq_none_iff.mpr ?_, huses⟩
    rcases huses.2 with ⟨rfl, rfl⟩ | ⟨hframe, rfl⟩
    · exact Or.inl present_clear_self
    · right
      rw [htable, hframe]
      exact present_clear_self
  · refine Or.inr ⟨?_, huses⟩
    by_cases hnone : walk m page = none
    · rw [hnone]
      rw [walk_eq_none_iff] at hnone ⊢
      refine hnone.imp ?_ ?_
      · intro h
        by_contra hpresent
        rw [present_of_clear (by simpa using hpresent)] at h
        cases h
      · intro h
        by_contra hpresent
        rw [htable] at hpresent
        rw [present_of_clear (by simpa using hpresent)] at h
        cases h
    · have hnot : ¬ (directoryFrame = frame ∧ slotOf page = index ∨
          m.table (slotOf page) = frame ∧ indexOf page = index) := fun h => huses ⟨hnone, h⟩
      rw [not_or] at hnot
      exact walk_congr (clear_of_ne hnot.1) fun _ => clear_of_ne hnot.2

end Clear

/-! ## The entry that is reached -/

/-- Through its directory the kernel reaches the entry of a page, where it has one, and no walk
but the one of the page uses it. -/
def Frames.EntryReached (m : Frames) (page : Nat) : Prop :=
  ∃ d, frameOf m directoryPage = some d ∧
    if present (m d (slotOf page)) = false then walk m page = none
    else ∃ g, frameOf m (tablePage (baseAddr (m d (slotOf page)))) = some g ∧
      (walk m page ≠ none → m.Uses page g (indexOf page)) ∧
      ∀ other < 1048576, other ≠ page → ¬ m.Uses other g (indexOf page)

/-- Where the page tables are sound, every entry is reached. -/
theorem Tables.entryReached {m : Frames} (h : Tables m) {page : Nat} (hpage : page < 1048576) :
    m.EntryReached page := by
  refine ⟨directoryFrame, h.directory, ?_⟩
  by_cases habsent : present (m directoryFrame (slotOf page)) = false
  · rw [if_pos habsent]
    exact walk_eq_none_of_absent habsent
  · have hslot : m.HasTable (slotOf page) := ⟨slotOf_lt hpage, by simpa using habsent⟩
    rw [if_neg habsent]
    refine ⟨m.table (slotOf page), h.reachable _ hslot, fun hwalk => ⟨hwalk, Or.inr ⟨rfl, rfl⟩⟩, ?_⟩
    rintro other hother hne ⟨hwalk, ⟨hdirectory, _⟩ | ⟨htable, hindex⟩⟩
    · exact h.apart _ hslot hdirectory.symm
    · obtain ⟨mapping, hmapping⟩ := Option.ne_none_iff_exists'.mp hwalk
      have hslot' : m.HasTable (slotOf other) := ⟨slotOf_lt hother, present_of_walk hmapping⟩
      exact hne (page_ext (h.distinct _ _ hslot' hslot htable) hindex)

section Unmap

variable {s : PagingState} {v flags : Nat}

theorem unmapPage_zero : unmapPage 0 flags s = .ok (some false, s) := rfl

/-- An address other than 0 passes the test. -/
theorem unmapPage_of_ne (hv : v ≠ 0) (hkern : fKern flags = true) : unmapPage v flags s =
    (do
      let pde ← load (pdeAddr (pdNo v))
      if present pde = false then pure (some true)
      else do
        let pde ← load (pdeAddr (pdNo v))
        modify (pteAddr (kptov (baseAddr pde * 4096)) (ptNo v)) clearPresent
        pure (some true) : PageM (Option Bool)) s := by
  have htest : alignmentTest v = 0 := by
    rw [alignmentTest, if_neg hv]
  rw [unmapPage, htest, if_neg (by decide), if_pos hkern]

/-- An address other than 0 is never rejected. -/
theorem unmapPage_returns (hv : v ≠ 0) (hkern : fKern flags = true) {r : Option Bool}
    {s' : PagingState} (h : unmapPage v flags s = .ok (r, s')) : r = some true := by
  rw [unmapPage_of_ne hv hkern] at h
  obtain ⟨pde, mid, _, hrest⟩ := bind_eq_ok h
  split at hrest
  · cases hrest
    rfl
  · obtain ⟨pde', mid', _, hrest⟩ := bind_eq_ok hrest
    obtain ⟨_, mid'', _, hrest⟩ := bind_eq_ok hrest
    cases hrest
    rfl

/-- The run of `unmap_page` on an address other than 0. -/
theorem unmapPage_eq_ok_iff (hv : v ≠ 0) (hlt : v < 4294967296) (hkern : fKern flags = true)
    {s' : PagingState} : unmapPage v flags s = .ok (some true, s') ↔
      ∃ d, frameOf s.frames directoryPage = some d ∧
        if present (s.frames d (slotOf (pageOf v))) = false then s' = s
        else ∃ g, frameOf s.frames (tablePage (baseAddr (s.frames d (slotOf (pageOf v))))) =
            some g ∧ s' = { s with frames := s.frames.clear g (indexOf (pageOf v)) } := by
  have hslot : slotOf (pageOf v) < 1024 := slotOf_lt (by unfold pageOf; omega)
  have hindex : indexOf (pageOf v) < 1024 := Nat.mod_lt _ (by decide)
  rw [unmapPage_of_ne hv hkern, pdNo_eq, ptNo_eq]
  constructor
  · intro h
    obtain ⟨pde, mid, hload, hrest⟩ := bind_eq_ok h
    obtain ⟨d, hd, rfl, rfl⟩ := load_frames hload
    rw [pageOf_pdeAddr hslot] at hd
    rw [wordOf_pdeAddr hslot] at hrest
    refine ⟨d, hd, ?_⟩
    split at hrest
    · rename_i habsent
      rw [if_pos habsent]
      cases hrest
      rfl
    · rename_i hpresent
      rw [if_neg hpresent]
      obtain ⟨pde, mid', hload', hrest⟩ := bind_eq_ok hrest
      obtain ⟨d', hd', rfl, rfl⟩ := load_frames hload'
      rw [pageOf_pdeAddr hslot, hd] at hd'
      obtain rfl := Option.some.inj hd'
      rw [wordOf_pdeAddr hslot] at hrest
      obtain ⟨_, mid'', hmodify, hpure⟩ := bind_eq_ok hrest
      cases hpure
      obtain ⟨g, hg, hset⟩ := modify_frames hmodify
      rw [pageOf_pteAddr hindex] at hg
      rw [wordOf_pteAddr hindex] at hset
      exact ⟨g, hg, hset⟩
  · rintro ⟨d, hd, hrest⟩
    rw [← pageOf_pdeAddr hslot] at hd
    rw [bind_run_of_ok (load_run hd), wordOf_pdeAddr hslot]
    split at hrest
    · rename_i habsent
      rw [if_pos habsent, hrest]
      rfl
    · rename_i hpresent
      obtain ⟨g, hg, rfl⟩ := hrest
      rw [← pageOf_pteAddr hindex] at hg
      rw [if_neg hpresent, bind_run_of_ok (load_run hd), wordOf_pdeAddr hslot,
        bind_run_of_ok (modify_run hg _), wordOf_pteAddr hindex]
      rfl

/-- On an aligned address other than 0 the page is unmapped exactly where its entry is
reached. -/
theorem unmapsPage_iff_reached (hv : v ≠ 0) (hlt : v < 4294967296) (haligned : v % 4096 = 0)
    (hkern : fKern flags = true) :
    UnmapsPage s v (unmapPage v flags s) ↔ s.frames.EntryReached (pageOf v) := by
  rw [UnmapsPage, if_neg (not_not.mpr haligned)]
  constructor
  · rintro ⟨s', hrun, hnone, hothers⟩
    obtain ⟨d, hd, hrest⟩ := (unmapPage_eq_ok_iff hv hlt hkern).mp hrun
    refine ⟨d, hd, ?_⟩
    split at hrest
    · rename_i habsent
      rw [if_pos habsent]
      rw [hrest] at hnone
      exact hnone
    · rename_i hpresent
      obtain ⟨g, hg, rfl⟩ := hrest
      rw [if_neg hpresent]
      refine ⟨g, hg, ?_, ?_⟩
      · intro hwalk
        rcases walk_clear with ⟨_, huses⟩ | ⟨hsame, _⟩
        · exact huses
        · exact absurd (hsame.symm.trans hnone) hwalk
      · intro other hother hne huses
        have hsame := hothers other hother hne
        rcases walk_clear with ⟨hlost, _⟩ | ⟨_, hnot⟩
        · exact huses.1 (hsame.symm.trans hlost)
        · exact hnot huses
  · rintro ⟨d, hd, hrest⟩
    split at hrest
    · rename_i habsent
      refine ⟨s, (unmapPage_eq_ok_iff hv hlt hkern).mpr ⟨d, hd, ?_⟩, hrest, fun _ _ _ => rfl⟩
      rw [if_pos habsent]
    · rename_i hpresent
      obtain ⟨g, hg, huses, hothers⟩ := hrest
      have hrun : unmapPage v flags s =
          .ok (some true, { s with frames := s.frames.clear g (indexOf (pageOf v)) }) := by
        refine (unmapPage_eq_ok_iff hv hlt hkern).mpr ⟨d, hd, ?_⟩
        rw [if_neg hpresent]
        exact ⟨g, hg, rfl⟩
      refine ⟨_, hrun, ?_, ?_⟩
      · rcases walk_clear with ⟨hlost, _⟩ | ⟨hsame, hnot⟩
        · exact hlost
        · rw [hsame]
          by_contra hwalk
          exact hnot (huses hwalk)
      · intro other hother hne
        rcases walk_clear with ⟨_, hlost⟩ | ⟨hsame, _⟩
        · exact absurd hlost (hothers other hother hne)
        · exact hsame

/-- `unmap_page(v, F_KERN)` does what it is for exactly on the aligned addresses other than 0
whose entry is reached. Where the page tables are sound, every entry is. -/
theorem unmap_page_removes_one_page_iff (hlt : v < 4294967296) (hkern : fKern flags = true) :
    (UnmapsPage s v (unmapPage v flags s) ↔
      v ≠ 0 ∧ v % 4096 = 0 ∧ s.frames.EntryReached (pageOf v)) ∧
    (Tables s.frames → (UnmapsPage s v (unmapPage v flags s) ↔ v ≠ 0 ∧ v % 4096 = 0)) := by
  have hiff : UnmapsPage s v (unmapPage v flags s) ↔
      v ≠ 0 ∧ v % 4096 = 0 ∧ s.frames.EntryReached (pageOf v) := by
    by_cases hv : v = 0
    · refine iff_of_false ?_ fun h => h.1 hv
      subst hv
      rintro ⟨s', hrun, _⟩
      rw [unmapPage_zero] at hrun
      cases hrun
    · by_cases haligned : v % 4096 = 0
      · rw [unmapsPage_iff_reached hv hlt haligned hkern]
        exact ⟨fun h => ⟨hv, haligned, h⟩, fun h => h.2.2⟩
      · refine iff_of_false ?_ fun h => haligned h.2.1
        rw [UnmapsPage, if_pos haligned]
        intro hrejected
        cases unmapPage_returns hv hkern hrejected
  refine ⟨hiff, fun htables => ?_⟩
  rw [hiff]
  have hreached : s.frames.EntryReached (pageOf v) :=
    htables.entryReached (by unfold pageOf; omega)
  exact ⟨fun h => ⟨h.1, h.2.1⟩, fun h => ⟨h.1, h.2, hreached⟩⟩

end Unmap

/-- A page of the identity pages of the boot state. -/
theorem unmap_page_removes_page_at_boot :
    UnmapsPage blankBoot 0x400000 (unmapPage 0x400000 F_KERN blankBoot) := by
  obtain ⟨hpaged, _, _⟩ := blankBoot_serves
  exact ((unmap_page_removes_one_page_iff (by decide) (by decide)).2 hpaged.tables).mpr
    ⟨by decide, by decide⟩

/-- Page 0 is rejected, although it is aligned. -/
theorem unmap_page_rejects_page_zero : ¬ ∀ (s : PagingState) (v : Nat), Tables s.frames →
    v < 4294967296 → UnmapsPage s v (unmapPage v F_KERN s) := by
  intro h
  obtain ⟨hpaged, _, _⟩ := blankBoot_serves
  obtain ⟨s', hrun, _⟩ := h blankBoot 0 hpaged.tables (by decide)
  rw [unmapPage_zero] at hrun
  cases hrun

end NickOS3.Paging
