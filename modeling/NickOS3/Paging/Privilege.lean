import NickOS3.Paging.Mapping

/-!
# User access to mapped pages

Runs of `map_page` from the boot directory, with the flags of every call, and what the user
bits of the two levels make of them.
-/

namespace NickOS3.Paging

open Foundation Program

/-- The kernel, and the page and the flags of every call, the last one first. -/
structure MapRun where
  state : PagingState
  log : List (Nat × Nat)

/-- A call of `map_page`. -/
structure MapRequest where
  paddr : Nat
  vaddr : Nat
  flags : Nat

def mapMachine : Machine MapRun MapRequest where
  start k := (∃ m, k.state.frames = bootMemory m) ∧ k.log = []
  step k a k' := a.paddr < 4294967296 ∧ a.vaddr < 4294967296 ∧
    mapPage a.paddr a.vaddr a.flags k.state = .ok ((), k'.state) ∧
    k'.log = (pageOf a.vaddr, a.flags) :: k.log

/-- The flags of the most recent call for a page. -/
def lastFlags (log : List (Nat × Nat)) (page : Nat) : Option Nat :=
  (log.find? fun call => call.1 = page).map Prod.snd

/-- The entry of a page in its table. -/
def Frames.pte (m : Frames) (page : Nat) : Nat := m (m.table (slotOf page)) (indexOf page)

/-- Ring 3 may access a page: it is translated with the user bit set at both levels. -/
def UserAccess (m : Frames) (page : Nat) : Prop :=
  ∃ mapping, walk m page = some mapping ∧ mapping.userSupervisor = true

/-- Exactly the pages last mapped without `F_KERN` are accessible to ring 3, and the entry of
one last mapped with it has no user bit. -/
structure PrivilegeFollows (k : MapRun) : Prop where
  access : ∀ page < 1048576, UserAccess k.state.frames page ↔
    ∃ flags, lastFlags k.log page = some flags ∧ fKern flags = false
  kernel : ∀ page < 1048576, ∀ flags, lastFlags k.log page = some flags → fKern flags = true →
    userSupervisor (k.state.frames.pte page) = false

/-- The tables are sound, and no directory entry has the user bit. -/
structure NoUserTables (m : Frames) : Prop where
  tables : Tables m
  supervisor : ∀ slot < 1024, userSupervisor (m directoryFrame slot) = false

/-- The call maps none of the pages through which the kernel reaches its tables, and there is
a frame for the table it needs. -/
structure MapRequest.Plain (s : PagingState) (a : MapRequest) : Prop where
  serves : Serves s (pageOf a.vaddr)
  directory : pageOf a.vaddr ≠ directoryPage
  tables : ∀ slot, s.frames.HasTable slot → pageOf a.vaddr ≠ tablePage (s.frames.table slot)
  fresh : ∀ i, firstFree s.physicalPageEntries = some i →
    pageOf a.vaddr ≠ tablePage (s.addr i / 4096)

section Privilege

variable {m : Frames} {s : PagingState} {k k' : MapRun} {a : MapRequest} {p page flags : Nat}

theorem userSupervisor_iff (entry : Nat) : userSupervisor entry = true ↔ entry / 4 % 2 = 1 :=
  beq_iff_eq

theorem userSupervisor_tableEntry (ptAddr entry : Nat) :
    userSupervisor (tableEntry ptAddr entry) = userSupervisor entry := by
  rw [Bool.eq_iff_iff, userSupervisor_iff, userSupervisor_iff]
  unfold tableEntry setReadWrite setPresent setBaseAddr
  omega

theorem userSupervisor_mapEntry (entry : Nat) (hkern : fKern flags = true) :
    userSupervisor (mapEntry p flags entry) = true := by
  unfold mapEntry
  rw [if_pos hkern, userSupervisor_iff, setUserSupervisor]
  omega

theorem noUserTables_bootMemory (m : Frames) : NoUserTables (bootMemory m) where
  tables := (paged_bootMemory m).tables
  supervisor slot hslot := by
    rw [bootMemory_directory m hslot, Bool.eq_false_iff, ne_eq, userSupervisor_iff]
    split
    · omega
    · split
      · omega
      · omega

/-- Without user bits in the directory ring 3 has no access at all. -/
theorem NoUserTables.not_userAccess (h : NoUserTables m) (hpage : page < 1048576) :
    ¬ UserAccess m page := by
  rintro ⟨mapping, hwalk, huser⟩
  unfold walk at hwalk
  dsimp only at hwalk
  split at hwalk
  · cases hwalk
    rw [h.supervisor _ (slotOf_lt hpage), Bool.false_and] at huser
    cases huser
  · cases hwalk

/-- Changing the entry of a page that is not one of the tables' own. -/
theorem NoUserTables.mapped (h : NoUserTables s.frames) (hslot : s.frames.HasTable (slotOf page))
    (hdirectory : page ≠ directoryPage)
    (htables : ∀ slot, s.frames.HasTable slot → page ≠ tablePage (s.frames.table slot)) :
    NoUserTables (s.mapped page p flags).frames ∧
      (s.mapped page p flags).frames.pte page
        = mapEntry p flags (s.frames (s.frames.table (slotOf page)) (indexOf page)) := by
  have hapart := h.tables.apart _ hslot
  refine ⟨⟨?_, ?_⟩, ?_⟩
  · rw [mapped_frames]
    exact h.tables.mapped hslot hdirectory htables
  · intro slot hlt
    rw [mapped_frames, directory_set hapart]
    exact h.supervisor slot hlt
  · rw [Frames.pte, mapped_frames, table_set hapart, Frames.set_self]

/-- A plain call keeps the directory without user bits, and makes the entry of its page. -/
theorem NoUserTables.step (h : NoUserTables k.state.frames) (hplain : a.Plain k.state)
    (hstep : mapMachine.step k a k') : NoUserTables k'.state.frames ∧
      ∃ entry, k'.state.frames.pte (pageOf a.vaddr) = mapEntry a.paddr a.flags entry := by
  obtain ⟨_, hv, hrun, _⟩ := hstep
  have hpage : pageOf a.vaddr < 1048576 := by
    unfold pageOf
    omega
  rcases h.tables.mapPage_cases hplain.serves hv hrun with
    ⟨hslot, heq⟩ | ⟨habsent, i, hi, hserve, heq⟩
  · obtain ⟨hnext, hpte⟩ :
        NoUserTables (k.state.mapped (pageOf a.vaddr) a.paddr a.flags).frames ∧ _ :=
      h.mapped hslot hplain.directory hplain.tables
    rw [heq]
    exact ⟨hnext, _, hpte⟩
  · have hserve' : (k.state.take i).frames.CanServe (k.state.addr i) := hserve
    have hinstalled := hserve'.installed h.tables (slotOf_lt hpage) habsent
    generalize (k.state.take i).withTable (slotOf (pageOf a.vaddr)) (k.state.addr i) = u
      at hinstalled heq
    have hnew : NoUserTables u.frames := by
      refine ⟨hinstalled.tables, fun slot hslot => ?_⟩
      rw [hinstalled.directory]
      split
      · rw [userSupervisor_tableEntry]
        exact h.supervisor _ (slotOf_lt hpage)
      · exact h.supervisor slot hslot
    have htables : ∀ slot, u.frames.HasTable slot →
        pageOf a.vaddr ≠ tablePage (u.frames.table slot) := by
      intro slot hslot
      by_cases heqslot : slot = slotOf (pageOf a.vaddr)
      · rw [heqslot, hinstalled.table]
        exact hplain.fresh i hi
      · have hold : k.state.frames.HasTable slot :=
          ((hinstalled.hasTable slot).mp hslot).resolve_right heqslot
        have hsame : u.frames.table slot = k.state.frames.table slot := by
          unfold Frames.table
          rw [hinstalled.directory, if_neg heqslot, take_frames]
        rw [hsame]
        exact hplain.tables slot hold
    obtain ⟨hnext, hpte⟩ : NoUserTables (u.mapped (pageOf a.vaddr) a.paddr a.flags).frames ∧ _ :=
      hnew.mapped ((hinstalled.hasTable _).mpr (.inr rfl)) hplain.directory htables
    rw [heq]
    exact ⟨hnext, _, hpte⟩

theorem noUserTables_reach (run : mapMachine.Reach (fun k a => a.Plain k.state) k) :
    NoUserTables k.state.frames := by
  induction run with
  | start hstart =>
      obtain ⟨⟨m, hm⟩, _⟩ := hstart
      rw [hm]
      exact noUserTables_bootMemory m
  | step _ hok hstep ih => exact (ih.step hok hstep).1

/-- After a plain call the privilege of its page does not follow its flags. -/
theorem NoUserTables.not_follows (h : NoUserTables k.state.frames) (hplain : a.Plain k.state)
    (hstep : mapMachine.step k a k') : ¬ PrivilegeFollows k' := by
  obtain ⟨hnext, entry, hpte⟩ := h.step hplain hstep
  obtain ⟨_, hv, _, hlog⟩ := hstep
  have hpage : pageOf a.vaddr < 1048576 := by
    unfold pageOf
    omega
  have hlast : lastFlags k'.log (pageOf a.vaddr) = some a.flags := by
    rw [hlog, lastFlags, List.find?_cons_of_pos (by simp)]
    rfl
  intro hfollows
  by_cases hkern : fKern a.flags = true
  · have hnone := hfollows.kernel _ hpage _ hlast hkern
    rw [hpte, userSupervisor_mapEntry _ hkern] at hnone
    cases hnone
  · exact hnext.not_userAccess hpage
      ((hfollows.access _ hpage).mpr ⟨_, hlast, by simpa using hkern⟩)

end Privilege

/-- The privilege of pages follows the flags as long as no page has been mapped, and in no
state after a call. -/
theorem privilege_follows_iff_nothing_mapped (k : MapRun) :
    (mapMachine.Reachable k → k.log = [] → PrivilegeFollows k) ∧
      (mapMachine.Reach (fun k a => a.Plain k.state) k → (PrivilegeFollows k ↔ k.log = [])) := by
  have hempty : mapMachine.Reachable k → k.log = [] → PrivilegeFollows k := by
    intro run hlog
    cases run with
    | start h =>
        obtain ⟨⟨m, hm⟩, _⟩ := h
        have hnone : ∀ page, lastFlags k.log page = none := by
          intro page
          rw [hlog]
          rfl
        refine ⟨fun page hpage => ?_, fun page _ flags hlast => ?_⟩
        · rw [hm, hnone]
          exact iff_of_false ((noUserTables_bootMemory m).not_userAccess hpage) (by simp)
        · rw [hnone] at hlast
          cases hlast
    | step _ _ h =>
        rw [h.2.2.2] at hlog
        cases hlog
  refine ⟨hempty, fun run => ⟨fun hfollows => ?_, fun hlog => ?_⟩⟩
  · cases run with
    | start h => exact h.2
    | @step k₀ k a run hplain h =>
        exact absurd hfollows ((noUserTables_reach run).not_follows hplain h)
  · exact hempty (run.mono fun _ _ _ => trivial) hlog

/-- One call with `F_KERN` from the boot directory. -/
theorem mapRun_one : ∃ k', mapMachine.start ⟨blankBoot, []⟩ ∧
    MapRequest.Plain blankBoot ⟨0x300000, 0x400000, F_KERN⟩ ∧
    mapMachine.step ⟨blankBoot, []⟩ ⟨0x300000, 0x400000, F_KERN⟩ k' := by
  obtain ⟨hpaged, hslot, hserves⟩ := blankBoot_serves
  have hlow : pageOf 0x400000 < kernelPage := by decide
  refine ⟨⟨blankBoot.mapped (pageOf 0x400000) 0x300000 F_KERN, [(pageOf 0x400000, F_KERN)]⟩,
    ⟨atBoot_blankBoot.frames, rfl⟩, ⟨hserves, by decide, fun slot hhas heq => ?_, fun i hi => ?_⟩,
    by decide, by decide, blankBoot_mapPage F_KERN, rfl⟩
  · rw [tablePage_window (hpaged.low slot hhas)] at heq
    dsimp only at heq
    omega
  · have hfree := firstFree_eq_some hi
    have htype := hfree.2
    simp only [blankBoot, reduceCtorEq] at htype

theorem privilege_follows_at_boot : PrivilegeFollows ⟨blankBoot, []⟩ := by
  obtain ⟨_, hstart, _⟩ := mapRun_one
  exact (privilege_follows_iff_nothing_mapped _).1 (.start hstart) rfl

theorem privilege_does_not_follow_after_a_call :
    ¬ ∀ k, mapMachine.Reachable k → PrivilegeFollows k := by
  intro h
  obtain ⟨k', hstart, hplain, hstep⟩ := mapRun_one
  have hno : NoUserTables blankBoot.frames := by
    obtain ⟨m, hm⟩ := atBoot_blankBoot.frames
    rw [hm]
    exact noUserTables_bootMemory m
  exact hno.not_follows (k := ⟨blankBoot, []⟩) hplain hstep
    (h k' (.step (.start hstart) trivial hstep))

end NickOS3.Paging
