import NickOS3.Foundation.Runs
import NickOS3.Paging.Reachability
import NickOS3.Paging.Recursion

/-!
# Runs on the directory

In a run of calls that keep the page tables reachable, `map_page` takes at most two frames and
makes them page tables exactly where the window has a table for the first of them, or for the
second one while the first belongs elsewhere in the directory than the page.
-/

namespace NickOS3.Paging

open Foundation Program

/-! ## Where it goes wrong -/

section Unbounded

variable {s s' : PagingState} {i j p v flags : Nat}

/-- A call that returns and has found no table has taken a frame, called itself and gone on. -/
theorem mapPage_absent_returns {fuel : Nat}
    (hreach : frameOf s.frames directoryPage = some directoryFrame) (hlt : v < 4294967296)
    (habsent : ¬ s.frames.HasTable (slotOf (pageOf v)))
    (hrun : mapPageWithin (fuel + 1) p v flags s = .ok ((), s')) :
    ∃ i u, firstFree s.physicalPageEntries = some i ∧
      mapPageWithin fuel (s.addr i) (kptov (s.addr i)) F_KERN (s.take i) = .ok ((), u) ∧
      (do
        setPde (slotOf (pageOf v)) (s.addr i)
        recordInstalled (slotOf (pageOf v))
        let pde ← load (pdeAddr (slotOf (pageOf v)))
        setPte (kptov (baseAddr pde * 4096)) (ptNo v) p flags : PageM Unit) u = .ok ((), s') := by
  have hpage : pageOf v < 1048576 := by
    unfold pageOf
    omega
  have hpde : present (s.frames directoryFrame (slotOf (pageOf v))) = false := by
    by_contra hne
    exact habsent ⟨slotOf_lt hpage, by simpa using hne⟩
  rw [mapPageWithin] at hrun
  split at hrun
  · cases hrun
  · rw [bind_run_of_ok (load_pde hreach hpage), hpde] at hrun
    obtain ⟨_, w, hbranch, hrest⟩ := bind_eq_ok hrun
    rw [if_neg (by simp)] at hbranch
    obtain ⟨ptAddr, mid, hnext, hbranch⟩ := bind_eq_ok hbranch
    obtain ⟨_, u, hinner, hbranch⟩ := bind_eq_ok hbranch
    obtain ⟨_, u', hpde', hrecord⟩ := bind_eq_ok hbranch
    rw [pdNo_eq] at hpde' hrecord hrest
    cases hfree : firstFree s.physicalPageEntries with
    | none =>
        rw [getNextFreePhysicalPage_none hfree] at hnext
        cases hnext
        cases fuel with
        | zero => cases hinner
        | succ k =>
            rw [mapPageWithin, if_pos (.inr (by decide))] at hinner
            cases hinner
    | some i =>
        rw [getNextFreePhysicalPage_run hfree] at hnext
        cases hnext
        have hpde'' : setPde (slotOf (pageOf v)) (s.addr i) u = _ := hpde'
        refine ⟨i, u, rfl, hinner, ?_⟩
        rw [bind_run_of_ok hpde'', bind_run_of_ok hrecord]
        exact hrest

/-- The addresses returned so far stay in the list. -/
theorem stable_returned (l : List Nat) : Stable fun s => ∃ l', s.returned = l' ++ l := by
  constructor
  · rintro s frame index word ⟨l', h⟩
    exact ⟨l', h⟩
  · rintro s i hi ⟨l', h⟩
    exact ⟨_ :: l', by rw [PagingState.take, h, List.cons_append]⟩
  · rintro s slot ⟨l', h⟩
    exact ⟨l', h⟩

/-- A call that returns and has found no table has added the frame to the list. -/
theorem Tables.mapPage_takes {fuel : Nat} (h : Tables s.frames) (hlt : v < 4294967296)
    (habsent : ¬ s.frames.HasTable (slotOf (pageOf v)))
    (hrun : mapPageWithin (fuel + 1) p v flags s = .ok ((), s')) :
    ∃ i, firstFree s.physicalPageEntries = some i ∧
      ∃ l, s'.returned = l ++ s.addr i :: s.returned := by
  obtain ⟨i, u, hi, hinner, hrest⟩ := mapPage_absent_returns h.directory hlt habsent hrun
  have hstable := stable_returned (s.addr i :: s.returned)
  refine ⟨i, hi, ?_⟩
  refine ((hstable.setPde _ _).bind fun _ => (hstable.recordInstalled _).bind fun _ =>
    (Stable.load _).bind fun _ => hstable.setPte _ _ _ _) u ?_ () s' hrest
  exact hstable.mapPageWithin _ _ _ _ (s.take i) ⟨[], rfl⟩ () u hinner

/-- With no table in the window for both frames a third one is taken. -/
theorem Supplied.mapPage_takes_three {fuel : Nat} (h : Supplied s) (hlt : v < 4294967296)
    (habsent : ¬ s.frames.HasTable (slotOf (pageOf v)))
    (hi : firstFree s.physicalPageEntries = some i) (hwindow : ¬ s.frames.HasTable (s.windowSlot i))
    (hj : firstFree (s.take i).physicalPageEntries = some j)
    (hwindow' : ¬ s.frames.HasTable (s.windowSlot j))
    (hrun : mapPageWithin (fuel + 3) p v flags s = .ok ((), s')) :
    ∃ l k, s'.returned = l ++ s.addr k :: s.addr j :: s.addr i :: s.returned := by
  have hfree := firstFree_eq_some hi
  have hfree' := (take_free j).mp (firstFree_eq_some hj)
  obtain ⟨_, u, hfirst, hinner, hrest⟩ := mapPage_absent_returns h.tables.directory hlt habsent hrun
  obtain rfl := Option.some.inj (hi.symm.trans hfirst)
  have habsent' : ¬ (s.take i).frames.HasTable (slotOf (pageOf (kptov (s.addr i)))) := by
    rw [pageOf_kptov (h.aligned i hfree)]
    exact hwindow
  obtain ⟨_, u', hsecond, hinner', hrest'⟩ :=
    mapPage_absent_returns (h.take i).tables.directory (u32_lt _) habsent' hinner
  obtain rfl := Option.some.inj (hj.symm.trans hsecond)
  rw [take_addr] at hinner' hrest'
  have habsent'' : ¬ ((s.take i).take j).frames.HasTable (slotOf (pageOf (kptov (s.addr j)))) := by
    rw [pageOf_kptov (h.aligned j hfree'.1)]
    exact hwindow'
  obtain ⟨k, _, l, hl⟩ :=
    ((h.take i).take j).tables.mapPage_takes (u32_lt _) habsent'' hinner'
  rw [take_addr, take_addr] at hl
  have hreturned : ((s.take i).take j).returned = s.addr j :: s.addr i :: s.returned := by
    rw [← take_addr (s := s) (i := i)]
    rfl
  rw [hreturned] at hl
  have hstable := stable_returned (s.addr k :: s.addr j :: s.addr i :: s.returned)
  have hkeeps : ∀ slot ptAddr i p flags, Keeps _ (do
      setPde slot ptAddr
      recordInstalled slot
      let pde ← load (pdeAddr slot)
      setPte (kptov (baseAddr pde * 4096)) i p flags : PageM Unit) := fun _ _ _ _ _ =>
    (hstable.setPde _ _).bind fun _ => (hstable.recordInstalled _).bind fun _ =>
      (Stable.load _).bind fun _ => hstable.setPte _ _ _ _
  obtain ⟨l', hl'⟩ := hkeeps _ _ _ _ _ u (hkeeps _ _ _ _ _ u' ⟨l, hl⟩ () u hrest') () s' hrest
  exact ⟨l', k, hl'⟩

/-- Where both frames are to become the table of one entry of the directory, the first one
replaces the second, through which it is reached. -/
theorem Supplied.mapPage_overwritten {fuel : Nat} (h : Supplied s) (hlt : v < 4294967296)
    (habsent : ¬ s.frames.HasTable (slotOf (pageOf v)))
    (hi : firstFree s.physicalPageEntries = some i) (hsame : s.windowSlot i = slotOf (pageOf v))
    (hj : firstFree (s.take i).physicalPageEntries = some j)
    (hwindow : s.frames.HasTable (s.windowSlot j))
    (hclean : present (s.frames (s.addr i / 4096) (indexOf (tablePage (s.addr i / 4096)))) =
      false) :
    mapPageWithin (fuel + 3) p v flags s ≠ .ok ((), s') := by
  intro hrun
  have hfree := firstFree_eq_some hi
  have haligned := h.aligned i hfree
  have hfits := h.fits i hfree
  have hpage := pageOf_kptov haligned
  have hslot : slotOf (pageOf v) < 1024 := slotOf_lt (by unfold pageOf; omega)
  obtain ⟨_, u, hfirst, hinner, hrest⟩ := mapPage_absent_returns h.tables.directory hlt habsent hrun
  obtain rfl := Option.some.inj (hi.symm.trans hfirst)
  have habsent' : ¬ (s.take i).frames.HasTable (slotOf (pageOf (kptov (s.addr i)))) := by
    rw [hpage, show slotOf (tablePage (s.addr i / 4096)) = _ from hsame]
    exact habsent
  have hwindow' : (s.take i).frames.HasTable ((s.take i).windowSlot j) := by
    rw [PagingState.windowSlot, take_addr]
    exact hwindow
  obtain ⟨u', hrun', hext, _⟩ := (h.take i).mapPage_one (kptov_aligned haligned) haligned
    (u32_lt _) habsent' hj hwindow' fuel
  obtain rfl : u = u' := congrArg Prod.snd (Except.ok.inj (hinner.symm.trans hrun'))
  have hnew : ¬ u.frames.IsTable (s.addr i / 4096) := by
    rw [hext.isTable, not_or]
    refine ⟨h.fresh i hfree, ?_⟩
    rintro ⟨a, ha, heq⟩
    obtain ⟨hj', hne⟩ := (take_free j).mp (firstFree_eq_some hj)
    rw [List.mem_singleton, take_addr] at ha
    rw [ha] at heq
    exact hne (h.distinct i j hfree hj' (frame_injective haligned (h.aligned j hj') heq)).symm
  have hne := h.tables.slot_directoryPage_ne habsent
  rw [bind_run_of_ok (hext.tables.setPde_run hslot hne)] at hrest
  generalize hx : u.set directoryFrame (slotOf (pageOf v)) _ = x at hrest
  have hentry : x.frames directoryFrame (slotOf (pageOf v)) =
      tableEntry (s.addr i) (u.frames directoryFrame (slotOf (pageOf v))) := by
    rw [← hx, set_frames, Frames.set_self]
  have hbase : baseAddr (x.frames directoryFrame (slotOf (pageOf v))) = s.addr i / 4096 := by
    rw [hentry, baseAddr_tableEntry]
    omega
  have hdirectory : frameOf x.frames (pageOf (pdeAddr (slotOf (pageOf v)))) =
      some directoryFrame := by
    rw [pageOf_pdeAddr hslot, ← hx, frameOf, set_frames, walk_set_directory hne]
    · exact hext.tables.directory
    · exact fun _ => hext.tables.apart _ (hasTable_of_frameOf (by decide) hext.tables.directory)
  obtain ⟨_, y, hrecord, hrest⟩ := bind_eq_ok hrest
  have hy : y.frames = x.frames := by
    cases hrecord
    rfl
  rw [← hy] at hdirectory hbase
  rw [bind_run_of_ok (load_run hdirectory), wordOf_pdeAddr hslot, hbase, ptNo_eq] at hrest
  have hnone : walk y.frames (pageOf (pteAddr (kptov (s.addr i / 4096 * 4096))
      (indexOf (pageOf v)))) = none := by
    rw [pageOf_pteAddr indexOf_lt]
    refine walk_eq_none_iff.mpr (.inr ?_)
    rw [show slotOf (tablePage (s.addr i / 4096)) = _ from hsame, Frames.table, hbase, hy, ← hx,
      set_frames, Frames.set_apply, if_neg fun heq => hnew (.inl heq.1), hext.content _ hnew]
    exact hclean
  obtain ⟨_, z, hmodify, _⟩ := bind_eq_ok hrest
  rw [Paging.modify, hnone] at hmodify
  cases hmodify

theorem Supplied.fits_of_bounded (h : Supplied s) (htwo : TwoFree s) (hlt : v < 4294967296)
    (hclean : ∀ i, firstFree s.physicalPageEntries = some i →
      present (s.frames (s.addr i / 4096) (indexOf (tablePage (s.addr i / 4096)))) = false)
    (hbounded : RecursionBounded s p v flags) : RecursionFits s v := by
  obtain ⟨s', taken, hrun, hreturned, hlength, _⟩ := hbounded
  have hrun' : mapPageWithin (4095 + 3) p v flags s = .ok ((), s') := hrun
  obtain ⟨i, j, hi, hj⟩ := htwo.firstFree
  by_cases hslot : s.frames.HasTable (slotOf (pageOf v))
  · exact .inl hslot
  · refine .inr fun a ha => ?_
    obtain rfl := Option.some.inj (hi.symm.trans ha)
    by_cases hwindow : s.frames.HasTable (s.windowSlot i)
    · exact .inl hwindow
    · have hsecond : s.frames.HasTable (s.windowSlot j) := by
        by_contra hwindow'
        obtain ⟨l, k, hthree⟩ :=
          h.mapPage_takes_three hlt hslot hi hwindow hj hwindow' hrun'
        have hcount := congrArg List.length (hreturned.symm.trans hthree)
        simp only [List.length_append, List.length_cons] at hcount
        omega
      refine .inr ⟨fun hsame => ?_, fun b hb => ?_⟩
      · exact h.mapPage_overwritten hlt hslot hi hsame hj hsecond (hclean i hi) hrun'
      · obtain rfl := Option.some.inj (hj.symm.trans hb)
        exact hsecond

end Unbounded

/-! ## Runs -/

/-- The calls that read or change the directory and the page tables. -/
inductive DirectoryCall
  | getNextFreePhysicalPage
  | mapPage (paddr vaddr flags : Nat)
  | unmapPage (vaddr : Nat)
  | clearIdentityPages

def DirectoryCall.run : DirectoryCall → PageM Unit
  | .getNextFreePhysicalPage => do
      let _ ← Paging.getNextFreePhysicalPage
      pure ()
  | .mapPage paddr vaddr flags => Paging.mapPage paddr vaddr flags
  | .unmapPage vaddr => do
      let _ ← Paging.unmapPage vaddr F_KERN
      pure ()
  | .clearIdentityPages => Paging.clearIdentityPages

/-- A call leaves the pages alone at which the kernel reaches the directory and its tables, and
`map_page` finds the tables it needs. -/
def DirectoryCall.Fits (s : PagingState) : DirectoryCall → Prop
  | .getNextFreePhysicalPage => True
  | .mapPage _ vaddr _ =>
      vaddr < 4294967296 ∧ ¬ s.frames.OwnPage (pageOf vaddr) ∧ RecursionFits s vaddr
  | .unmapPage vaddr => vaddr < 4294967296 ∧ ¬ s.frames.OwnPage (pageOf vaddr)
  | .clearIdentityPages => ∀ page, s.frames.OwnPage page → 6 ≤ slotOf page

/-- Runs start on sound page tables, with free frames that are none. A step is a call that
returns. -/
def directoryMachine : Machine PagingState DirectoryCall where
  start := Supplied
  step s c s' := c.run s = .ok ((), s')

section Runs

variable {s s' : PagingState} {p v flags : Nat}

/-- Where no table is added and the table of frames stays. -/
theorem Supplied.congr (h : Supplied s) (htables : Tables s'.frames)
    (hentries : s'.physicalPageEntries = s.physicalPageEntries)
    (hsub : ∀ f, s'.frames.IsTable f → s.frames.IsTable f) : Supplied s' := by
  have hfree : ∀ i, s'.Free i ↔ s.Free i := by
    intro i
    rw [PagingState.Free, PagingState.Free, hentries]
  have haddr : ∀ i, s'.addr i = s.addr i := by
    intro i
    rw [PagingState.addr, PagingState.addr, hentries]
  constructor
  · exact htables
  · intro i hi
    rw [haddr]
    exact h.aligned i ((hfree i).mp hi)
  · intro i hi
    rw [haddr]
    exact h.fits i ((hfree i).mp hi)
  · intro i hi htable
    rw [haddr] at htable
    exact h.fresh i ((hfree i).mp hi) (hsub _ htable)
  · intro i j hi hj heq
    rw [haddr, haddr] at heq
    exact h.distinct i j ((hfree i).mp hi) ((hfree j).mp hj) heq

/-- `map_page` -/
theorem Supplied.mapPage (h : Supplied s) (hlt : v < 4294967296)
    (hown : ¬ s.frames.OwnPage (pageOf v)) (hfits : RecursionFits s v)
    (hrun : mapPage p v flags s = .ok ((), s')) : Supplied s' := by
  obtain ⟨hv, hp⟩ := mapPage_aligned hrun
  by_cases hslot : s.frames.HasTable (slotOf (pageOf v))
  · obtain ⟨hpresent, hext, _⟩ : mapPageWithin (4097 + 1) p v flags s = _ ∧ _ :=
      h.tables.mapPage_extends hv hp hlt hslot hown 4097
    obtain rfl := congrArg Prod.snd (Except.ok.inj (hpresent.symm.trans hrun))
    exact h.extends hext
  · obtain ⟨i, u, hi, hinner, _⟩ := mapPage_absent_returns h.tables.directory hlt hslot hrun
    by_cases hwindow : s.frames.HasTable (s.windowSlot i)
    · obtain ⟨s'', hone, hext, _⟩ : ∃ s'',
          mapPageWithin (4096 + 2) p v flags s = .ok ((), s'') ∧ _ :=
        h.mapPage_one hv hp hlt hslot hi hwindow 4096
      obtain rfl := congrArg Prod.snd (Except.ok.inj (hone.symm.trans hrun))
      exact h.extends hext
    · obtain ⟨hne, hsecond⟩ := (hfits.resolve_left hslot i hi).resolve_left hwindow
      have habsent : ¬ (s.take i).frames.HasTable (slotOf (pageOf (kptov (s.addr i)))) := by
        rw [pageOf_kptov (h.aligned i (firstFree_eq_some hi))]
        exact hwindow
      obtain ⟨j, _, hj, _⟩ :=
        mapPage_absent_returns (h.take i).tables.directory (u32_lt _) habsent hinner
      obtain ⟨s'', htwo, hext⟩ : ∃ s'', mapPageWithin (4095 + 3) p v flags s = .ok ((), s'') ∧ _ :=
        h.mapPage_two hv hp hlt hslot hi hwindow hne hj (hsecond j hj) 4095
      obtain rfl := congrArg Prod.snd (Except.ok.inj (htwo.symm.trans hrun))
      exact h.extends hext

/-- `unmap_page` -/
theorem Supplied.unmapPage (h : Supplied s) (hlt : v < 4294967296)
    (hown : ¬ s.frames.OwnPage (pageOf v)) {r : Option Bool}
    (hrun : unmapPage v F_KERN s = .ok (r, s')) : Supplied s' := by
  have htables := (h.tables.unmapPage_frames hlt hown hrun).1
  by_cases hv : v = 0
  · subst hv
    cases hrun
    exact h
  · obtain rfl := unmapPage_returns hv (by decide) hrun
    obtain ⟨d, hd, hrest⟩ := (unmapPage_eq_ok_iff hv hlt (by decide)).mp hrun
    obtain rfl := Option.some.inj (h.tables.directory.symm.trans hd)
    split at hrest
    · rw [hrest]
      exact h
    · rename_i hpresent
      obtain ⟨g, hg, rfl⟩ := hrest
      have hslot : s.frames.HasTable (slotOf (pageOf v)) :=
        ⟨slotOf_lt (by unfold pageOf; omega), by simpa using hpresent⟩
      obtain rfl := Option.some.inj ((h.tables.reachable _ hslot).symm.trans hg)
      exact h.congr htables rfl fun f => (isTable_set (h.tables.apart _ hslot)).mp

theorem clear_directory {m : Frames} {slot : Nat} (x : Nat) :
    ((m.clear directoryFrame slot).HasTable x ↔ m.HasTable x ∧ x ≠ slot) ∧
      (m.clear directoryFrame slot).table x = m.table x := by
  refine ⟨?_, baseAddr_clear _ _⟩
  rw [Frames.HasTable, Frames.HasTable]
  by_cases hx : x = slot
  · rw [hx, present_clear_self]
    simp
  · rw [clear_of_ne fun heq => hx heq.2]
    simp [hx]

/-- An entry of the directory is cleared under which no table is reached. -/
theorem Tables.cleared {m : Frames} (h : Tables m) {slot : Nat}
    (hown : ∀ page, m.OwnPage page → slotOf page ≠ slot) :
    Tables (m.clear directoryFrame slot) := by
  have hwalk : ∀ page, m.OwnPage page →
      frameOf (m.clear directoryFrame slot) page = frameOf m page := by
    intro page hpage
    rw [frameOf, frameOf, Frames.clear, walk_set_directory (hown page hpage)]
    exact fun _ => h.apart _ (hpage.hasTable h)
  constructor
  · rw [hwalk _ (.inl rfl)]
    exact h.directory
  · intro x hx
    have hx' := ((clear_directory x).1.mp hx).1
    rw [(clear_directory x).2, hwalk _ (.inr ⟨x, hx', rfl⟩)]
    exact h.reachable x hx'
  · intro x hx
    rw [(clear_directory x).2]
    exact h.apart x ((clear_directory x).1.mp hx).1
  · intro x y hx hy heq
    rw [(clear_directory x).2, (clear_directory y).2] at heq
    exact h.distinct x y ((clear_directory x).1.mp hx).1 ((clear_directory y).1.mp hy).1 heq

/-- The loop of `clear_identity_pages`. -/
theorem Supplied.clearIdentityLoop {i n : Nat} (h : Supplied s) (hn : i + n ≤ 1024)
    (hown : ∀ page, s.frames.OwnPage page → ¬ (i ≤ slotOf page ∧ slotOf page < i + n))
    (hrun : clearIdentityLoop i n s = .ok ((), s')) : Supplied s' := by
  induction n generalizing i s with
  | zero =>
      cases hrun
      exact h
  | succ n ih =>
      obtain ⟨_, u, hclear, hrest⟩ := bind_eq_ok hrun
      obtain ⟨d, hd, hu⟩ := modify_frames hclear
      rw [pageOf_pdeAddr (by omega), h.tables.directory] at hd
      obtain rfl := Option.some.inj hd
      rw [wordOf_pdeAddr (by omega)] at hu
      have hframes : u.frames = s.frames.clear directoryFrame i := by
        rw [hu]
        rfl
      have hentries : u.physicalPageEntries = s.physicalPageEntries := by
        rw [hu]
        rfl
      have htables : Tables u.frames := by
        rw [hframes]
        refine h.tables.cleared fun page hpage heq => hown page hpage ?_
        omega
      have hsub : ∀ f, u.frames.IsTable f → s.frames.IsTable f := by
        rintro f (heq | ⟨x, hx, heq⟩)
        · exact .inl heq
        · rw [hframes] at hx heq
          rw [(clear_directory x).2] at heq
          exact .inr ⟨x, ((clear_directory x).1.mp hx).1, heq⟩
      refine ih (h.congr htables hentries hsub) (by omega) (fun page hpage => ?_) hrest
      have hpage' : s.frames.OwnPage page := by
        rcases hpage with heq | ⟨x, hx, heq⟩
        · exact .inl heq
        · rw [hframes] at hx heq
          rw [(clear_directory x).2] at heq
          exact .inr ⟨x, ((clear_directory x).1.mp hx).1, heq⟩
      have := hown page hpage'
      omega

theorem Supplied.step {c : DirectoryCall} (h : Supplied s) (hfits : c.Fits s)
    (hstep : directoryMachine.step s c s') : Supplied s' := by
  cases c with
  | getNextFreePhysicalPage =>
      obtain ⟨_, u, hnext, hpure⟩ := bind_eq_ok hstep
      cases hpure
      cases hfree : firstFree s.physicalPageEntries with
      | none =>
          rw [getNextFreePhysicalPage_none hfree] at hnext
          cases hnext
          exact h
      | some i =>
          rw [getNextFreePhysicalPage_run hfree] at hnext
          cases hnext
          exact h.take i
  | mapPage p v flags => exact h.mapPage hfits.1 hfits.2.1 hfits.2.2 hstep
  | unmapPage v =>
      obtain ⟨r, u, hunmap, hpure⟩ := bind_eq_ok hstep
      cases hpure
      exact h.unmapPage hfits.1 hfits.2 hunmap
  | clearIdentityPages =>
      refine h.clearIdentityLoop (by decide) (fun page hpage => ?_) hstep
      have := hfits page hpage
      omega

/-- Along a run whose calls fit. -/
theorem directoryRun_supplied (run : directoryMachine.Reach (fun s c => c.Fits s) s) :
    Supplied s := by
  refine run.invariant (fun s h => h) ?_
  intro s c s' h hfits hstep
  exact h.step hfits hstep

/-- In every state of a run whose calls fit, with two frames free, a call of `map_page` that fits
returns after at most two frames, which are page tables then. Where memory holds no present entry
in the place of the one for the first frame, no other call does. -/
theorem map_page_recursion_bounded_iff
    (run : directoryMachine.Reach (fun s c => c.Fits s) s) (htwo : TwoFree s)
    (hp : p % 4096 = 0) (hv : v < 4294967296) (hvaligned : v % 4096 = 0) :
    (RecursionFits s v → RecursionBounded s p v flags) ∧
      ((∀ i, firstFree s.physicalPageEntries = some i →
          present (s.frames (s.addr i / 4096) (indexOf (tablePage (s.addr i / 4096)))) = false) →
        (RecursionBounded s p v flags ↔ RecursionFits s v)) := by
  have h := directoryRun_supplied run
  have hbounded : RecursionFits s v → RecursionBounded s p v flags :=
    h.bounded htwo hvaligned hp hv
  exact ⟨hbounded, fun hclean => ⟨h.fits_of_bounded htwo hv hclean, hbounded⟩⟩

end Runs

/-! ## Where runs start -/

/-- Every state that calls apart from the page tables lead to. -/
theorem Sound.supplied {s : PagingState} (h : Sound s) : Supplied s where
  tables := h.paged.tables
  aligned i hi := (h.usable i hi).1
  fits i hi := by
    have hlt := (h.usable i hi).2.1
    unfold windowFrames at hlt
    omega
  fresh i hi := (h.usable i hi).2.2
  distinct := h.distinct

/-- The pages of the table lie below 4 GiB and are no boot tables. -/
def BelowLimit (regions : List MemoryMapEntry) : Prop :=
  MapFits (fun _ r x => r.base % 4096 = 0 ∧ r.base + x * 4096 < 4294967296 ∧
    ¬ BootTable (r.base / 4096 + x)) regions

/-- What `setupAvailablePages` makes of such a memory map, also beyond the window. -/
theorem Prepared.supplied {regions : List MemoryMapEntry} {s u : PagingState}
    (h : Prepared regions s u) (hboot : AtBoot s) (hmap : UsableMap regions)
    (hfit : BelowLimit regions) : Supplied u := by
  obtain ⟨m, hm⟩ := hboot.frames
  have hentry : ∀ i, u.Free i → ∃ r x, pageAt regions i = some (r, x) ∧ r.base % 4096 = 0 ∧
      u.addr i = r.base + x * 4096 ∧ r.base + x * 4096 < 4294967296 ∧
      ¬ BootTable (r.base / 4096 + x) := by
    intro i hi
    obtain ⟨hnot, r, x, hpage, haddr⟩ := h.free i hi
    obtain ⟨haligned, hlt, hnotTable⟩ := hfit i hi.1 hnot r x hpage
    exact ⟨r, x, hpage, haligned, haddr.trans (u32_of_lt hlt), hlt, hnotTable⟩
  constructor
  · exact h.paged.tables
  · intro i hi
    obtain ⟨r, x, _, haligned, haddr, _⟩ := hentry i hi
    omega
  · intro i hi
    obtain ⟨r, x, _, _, haddr, hlt, _⟩ := hentry i hi
    omega
  · intro i hi
    obtain ⟨r, x, _, haligned, haddr, _, hnotTable⟩ := hentry i hi
    rw [show u.addr i / 4096 = r.base / 4096 + x by omega, h.tables, hm, bootMemory_isTable]
    exact hnotTable
  · intro i j hi hj heq
    obtain ⟨r, x, hpage, haligned, haddr, _⟩ := hentry i hi
    obtain ⟨r', x', hpage', haligned', haddr', _⟩ := hentry j hj
    by_contra hne
    apply frame_ne hmap.disjoint hpage hpage' hne haligned haligned'
    omega

/-! ## Two free frames -/

/-- The boot state with two free frames. -/
def twoFrames (first : Nat) : PagingState :=
  { blankBoot with
    physicalPageEntries := fun i =>
      if i < 2 then ⟨.free, (first + i) * 4096⟩ else ⟨.unset, 0⟩ }

section TwoFrames

variable {first i : Nat}

theorem twoFrames_free : (twoFrames first).Free i ↔ i < 2 := by
  unfold PagingState.Free twoFrames MAX_PHYS_PAGES
  dsimp only
  split
  · rename_i hi
    exact iff_of_true ⟨by omega, rfl⟩ hi
  · rename_i hi
    refine iff_of_false ?_ hi
    rintro ⟨_, htype⟩
    cases htype

theorem twoFrames_addr (hi : i < 2) : (twoFrames first).addr i = (first + i) * 4096 := by
  unfold PagingState.addr twoFrames
  dsimp only
  rw [if_pos hi]

theorem twoFrames_frames : (twoFrames first).frames = bootMemory fun _ _ => 0 := by
  simp only [twoFrames, blankBoot]

theorem supplied_twoFrames (hlt : first + 1 < 1048576) (hfresh : ¬ BootTable first)
    (hfresh' : ¬ BootTable (first + 1)) : Supplied (twoFrames first) := by
  constructor
  · rw [twoFrames_frames]
    exact (paged_bootMemory _).tables
  · intro i hi
    rw [twoFrames_addr (twoFrames_free.mp hi)]
    omega
  · intro i hi
    have hi' := twoFrames_free.mp hi
    rw [twoFrames_addr hi']
    omega
  · intro i hi
    have hi' := twoFrames_free.mp hi
    rw [twoFrames_addr hi', twoFrames_frames, bootMemory_isTable,
      Nat.mul_div_cancel _ (by decide)]
    obtain rfl | rfl : i = 0 ∨ i = 1 := by omega
    · exact hfresh
    · exact hfresh'
  · intro i j hi hj heq
    rw [twoFrames_addr (twoFrames_free.mp hi), twoFrames_addr (twoFrames_free.mp hj)] at heq
    omega

theorem twoFree_twoFrames : TwoFree (twoFrames first) :=
  ⟨0, 1, by decide, twoFrames_free.mpr (by decide), twoFrames_free.mpr (by decide)⟩

theorem firstFree_twoFrames : firstFree (twoFrames first).physicalPageEntries = some 0 :=
  firstFree_of_least (twoFrames_free.mpr (by decide)) fun _ _ => Nat.zero_le _

end TwoFrames

/-- With frames of the window a table takes one of them. -/
theorem map_page_recursion_bounded_at_boot :
    TwoFree (twoFrames 0x200) ∧ ¬ (twoFrames 0x200).frames.HasTable (slotOf (pageOf 0x1800000)) ∧
      RecursionBounded (twoFrames 0x200) 0x300000 0x1800000 F_KERN := by
  have hsupplied : Supplied (twoFrames 0x200) :=
    supplied_twoFrames (by decide) (by decide) (by decide)
  have hfits : RecursionFits (twoFrames 0x200) 0x1800000 := by
    refine .inr fun i hi => .inl ?_
    obtain rfl := Option.some.inj (hi.symm.trans firstFree_twoFrames)
    rw [PagingState.windowSlot, twoFrames_addr (by decide), twoFrames_frames, bootMemory_hasTable]
    decide
  refine ⟨twoFree_twoFrames, ?_, (map_page_recursion_bounded_iff (.start hsupplied)
    twoFree_twoFrames (by decide) (by decide) (by decide)).1 hfits⟩
  rw [twoFrames_frames, bootMemory_hasTable]
  decide

/-- Beyond the window each new table needs a further one. -/
theorem map_page_recursion_not_bounded : ¬ ∀ s, directoryMachine.Reachable s → TwoFree s →
    ∀ p v flags, p % 4096 = 0 → v < 4294967296 → v % 4096 = 0 → RecursionBounded s p v flags := by
  intro hall
  have hsupplied : Supplied (twoFrames 0x1800) :=
    supplied_twoFrames (by decide) (by decide) (by decide)
  have hbounded := hall _ (.start hsupplied) twoFree_twoFrames 0x300000 0x1800000 F_KERN (by decide)
    (by decide) (by decide)
  have hclean : ∀ i, firstFree (twoFrames 0x1800).physicalPageEntries = some i →
      present ((twoFrames 0x1800).frames ((twoFrames 0x1800).addr i / 4096)
        (indexOf (tablePage ((twoFrames 0x1800).addr i / 4096)))) = false := by
    intro i hi
    obtain rfl := Option.some.inj (hi.symm.trans firstFree_twoFrames)
    rw [twoFrames_addr (by decide), twoFrames_frames, bootMemory_apply _ _ _ indexOf_lt]
    decide
  rcases hsupplied.fits_of_bounded twoFree_twoFrames (by decide) hclean hbounded with hslot | hfits
  · rw [twoFrames_frames, bootMemory_hasTable] at hslot
    exact absurd hslot (by decide)
  · rcases hfits 0 firstFree_twoFrames with hwindow | ⟨_, hsecond⟩
    · rw [PagingState.windowSlot, twoFrames_addr (by decide), twoFrames_frames,
        bootMemory_hasTable] at hwindow
      exact absurd hwindow (by decide)
    · have htwo : TwoFree (twoFrames 0x1800) := twoFree_twoFrames
      obtain ⟨i, j, hi, hj⟩ := htwo.firstFree
      obtain rfl := Option.some.inj (hi.symm.trans firstFree_twoFrames)
      have hj' := (take_free j).mp (firstFree_eq_some hj)
      obtain rfl : j = 1 := by
        have := twoFrames_free.mp hj'.1
        omega
      have hwindow := hsecond 1 hj
      rw [PagingState.windowSlot, twoFrames_addr (by decide), twoFrames_frames,
        bootMemory_hasTable] at hwindow
      exact absurd hwindow (by decide)

end NickOS3.Paging
