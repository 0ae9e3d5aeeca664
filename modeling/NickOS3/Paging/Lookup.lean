import NickOS3.Foundation.Runs
import NickOS3.Paging.Unmap

/-!
# Looking up a translation

`map_page` stores the number of a frame, and `lookup_phys` shifts that number to the right
once more instead of back to an address. Over a run of `map_page` and `unmap_page` on sound
page tables, the translations are those of the calls, except that `unmap_page` does nothing on
page 0; so the answer is right for the pages that are not mapped or are mapped to frame 0.
-/

namespace NickOS3.Paging

open Foundation Program

/-- `lookup_phys`, less what it prints; each call that finds an entry prints, so the console has
to be mapped. -/
def lookupPhys (vaddr : Nat) (dump : Bool) : PageM Nat := do
  let pde ← load (pdeAddr (pdNo vaddr))
  if present pde = false then pure NO_ADDR
  else do
    let pde ← load (pdeAddr (pdNo vaddr))
    let pt := kptov (baseAddr pde * 4096)
    let pte ← load (pteAddr pt (ptNo vaddr))
    if dump = false ∧ present pte = false then pure NO_ADDR
    else do
      let pte ← load (pteAddr pt (ptNo vaddr))
      pure (baseAddr pte / 4096)

/-! ## Runs of calls -/

/-- A call of `map_page` or of `unmap_page` with `F_KERN`. -/
inductive MapCall
  | map (paddr vaddr flags : Nat)
  | unmap (vaddr : Nat)
  deriving DecidableEq

/-- The page a call is about. -/
def MapCall.page : MapCall → Nat
  | .map _ vaddr _ => pageOf vaddr
  | .unmap vaddr => pageOf vaddr

/-- The run of the calls from a state on, the latest call first. -/
structure LookupRun where
  origin : Frames
  state : PagingState
  history : List MapCall

/-- Addresses have 32 bits, and those of the calls are aligned. -/
def MapCall.Aligned : MapCall → Prop
  | .map paddr vaddr _ => paddr < 4294967296 ∧ vaddr < 4294967296 ∧ paddr % 4096 = 0 ∧
      vaddr % 4096 = 0
  | .unmap vaddr => vaddr < 4294967296 ∧ vaddr % 4096 = 0

/-- A call returns. -/
def MapCall.Returns (s s' : PagingState) : MapCall → Prop
  | .map paddr vaddr flags => mapPage paddr vaddr flags s = .ok ((), s')
  | .unmap vaddr => ∃ r, unmapPage vaddr F_KERN s = .ok (r, s')

/-- Runs start on sound page tables. -/
def lookupMachine : Machine LookupRun MapCall where
  start k := Tables k.state.frames ∧ k.origin = k.state.frames ∧ k.history = []
  step k c k' := c.Aligned ∧ c.Returns k.state k'.state ∧ k'.origin = k.origin ∧
    k'.history = c :: k.history

/-- The kernel reaches its directory or a page table at a page. -/
def Frames.OwnPage (m : Frames) (page : Nat) : Prop :=
  page = directoryPage ∨ ∃ slot, m.HasTable slot ∧ page = tablePage (m.table slot)

/-- A call keeps to the page tables: it leaves the pages alone at which the kernel reaches
them, and a new table has a clean frame, at whose address it is mapped. -/
def MapCall.Keeps (s : PagingState) (c : MapCall) : Prop :=
  ¬ s.frames.OwnPage c.page ∧
    match c with
    | .unmap _ => True
    | .map .. => ¬ s.frames.HasTable (slotOf c.page) → ∀ i,
        firstFree s.physicalPageEntries = some i → s.frames.CanServe (s.addr i) ∧
          frameOf s.frames (tablePage (s.addr i / 4096)) = some (s.addr i / 4096) ∧
          ∀ k < 1024, k ≠ indexOf c.page → present (s.frames (s.addr i / 4096) k) = false

/-! ## What should be found -/

/-- The latest call about a page. -/
def latest (history : List MapCall) (page : Nat) : Option MapCall :=
  history.find? fun c => c.page = page

/-- `lookup_phys` finds the address of the latest `map_page`, and `NO_ADDR` after `unmap_page`
or where nothing has ever been mapped. -/
def LookupRight (k : LookupRun) (v : Nat) : Prop :=
  match latest k.history (pageOf v) with
  | some (.map paddr _ _) => lookupPhys v false k.state = .ok (paddr, k.state)
  | some (.unmap _) => lookupPhys v false k.state = .ok (NO_ADDR, k.state)
  | none => frameOf k.origin (pageOf v) = none →
      lookupPhys v false k.state = .ok (NO_ADDR, k.state)

/-- The latest call has mapped the page to physical address 0, or has unmapped it and it is not
page 0, unless that has never been mapped. -/
def LookupFits (k : LookupRun) (v : Nat) : Prop :=
  match latest k.history (pageOf v) with
  | some (.map paddr _ _) => paddr = 0
  | some (.unmap _) => pageOf v ≠ 0 ∨ frameOf k.origin 0 = none ∧
      ∀ paddr vaddr flags, .map paddr vaddr flags ∈ k.history → pageOf vaddr ≠ 0
  | none => True

/-- The frames pages translate to after some calls. -/
def translated (origin : Frames) : List MapCall → Nat → Option Nat
  | [] => frameOf origin
  | .map paddr vaddr _ :: rest =>
      Function.update (translated origin rest) (pageOf vaddr) (some (paddr / 4096))
  | .unmap vaddr :: rest =>
      if vaddr = 0 then translated origin rest
      else Function.update (translated origin rest) (pageOf vaddr) none

/-! ## The calls on sound page tables -/

/-- What `lookup_phys` answers for a page that translates to a frame or not at all. -/
def answer : Option Nat → Nat
  | none => NO_ADDR
  | some frame => frame / 4096

section Calls

variable {s s' : PagingState} {p v flags : Nat}

theorem Tables.lookupPhys_run (h : Tables s.frames) (hv : v < 4294967296) :
    lookupPhys v false s = .ok (answer (frameOf s.frames (pageOf v)), s) := by
  have hslot : slotOf (pageOf v) < 1024 := slotOf_lt (by unfold pageOf; omega)
  have hindex : indexOf (pageOf v) < 1024 := Nat.mod_lt _ (by decide)
  have hpde : load (pdeAddr (slotOf (pageOf v))) s =
      .ok (s.frames directoryFrame (slotOf (pageOf v)), s) := by
    have hdirectory := h.directory
    rw [← pageOf_pdeAddr hslot] at hdirectory
    rw [load_run hdirectory, wordOf_pdeAddr hslot]
  rw [lookupPhys, pdNo_eq, ptNo_eq, bind_run_of_ok hpde]
  by_cases habsent : present (s.frames directoryFrame (slotOf (pageOf v))) = false
  · rw [if_pos habsent, frameOf, walk_eq_none_of_absent habsent]
    rfl
  · have hpresent : present (s.frames directoryFrame (slotOf (pageOf v))) = true := by
      simpa using habsent
    rw [if_neg habsent, bind_run_of_ok hpde]
    have hpte : load (pteAddr (kptov (s.frames.table (slotOf (pageOf v)) * 4096))
        (indexOf (pageOf v))) s =
        .ok (s.frames (s.frames.table (slotOf (pageOf v))) (indexOf (pageOf v)), s) := by
      have hreach := h.reachable _ ⟨hslot, hpresent⟩
      rw [← pageOf_pteAddr hindex] at hreach
      rw [load_run hreach, wordOf_pteAddr hindex]
    rw [Frames.table] at hpte
    rw [bind_run_of_ok hpte]
    by_cases hnone : present (s.frames (baseAddr (s.frames directoryFrame (slotOf (pageOf v))))
        (indexOf (pageOf v))) = false
    · have hwalk : walk s.frames (pageOf v) = none := walk_eq_none_iff.mpr (Or.inr hnone)
      rw [if_pos ⟨rfl, hnone⟩, frameOf, hwalk]
      rfl
    · rw [if_neg fun hand => hnone hand.2, bind_run_of_ok hpte, frameOf,
        walk_of_present hpresent rfl rfl (by simpa using hnone)]
      rfl

/-- A new table with a clean frame adds no translation. -/
theorem Installed.frameOf_eq {u : PagingState} {page ptAddr : Nat} (hpage : page < 1048576)
    (hinstalled : Installed s u (slotOf page) ptAddr)
    (habsent : ¬ s.frames.HasTable (slotOf page))
    (hreached : frameOf s.frames (tablePage (ptAddr / 4096)) = some (ptAddr / 4096))
    (hclean : ∀ k < 1024, k ≠ indexOf page → present (s.frames (ptAddr / 4096) k) = false)
    {w : Nat} (hw : w < 1048576) (hne : w ≠ page) : frameOf u.frames w = frameOf s.frames w := by
  by_cases hslots : slotOf w = slotOf page
  · have hold : Paging.walk s.frames w = none := by
      apply walk_eq_none_of_absent
      by_contra hpresent
      exact habsent ⟨slotOf_lt hpage, by rw [← hslots]; simpa using hpresent⟩
    have hentry : u.frames (u.frames.table (slotOf w)) (indexOf w) =
        s.frames (ptAddr / 4096) (indexOf w) := by
      rw [hslots, hinstalled.table, hinstalled.content]
    have hnew : Paging.walk u.frames w = none := by
      refine walk_eq_none_iff.mpr (Or.inr ?_)
      rw [hentry]
      exact hclean _ (Nat.mod_lt _ (by decide)) fun hindex => hne (page_ext hslots hindex)
    rw [frameOf, frameOf, hold, hnew]
  · by_cases hwindow : w = tablePage (ptAddr / 4096)
    · have hslot : u.frames.HasTable (slotOf page) := (hinstalled.hasTable _).mpr (Or.inr rfl)
      have hreach := hinstalled.tables.reachable _ hslot
      rw [hinstalled.table] at hreach
      rw [hwindow, hreach, hreached]
    · rw [frameOf, frameOf, hinstalled.walk w hw hslots hwindow]

/-- The pages at which the kernel reaches its tables, with the new one. -/
theorem Installed.not_ownPage {u : PagingState} {page ptAddr : Nat}
    (hinstalled : Installed s u (slotOf page) ptAddr)
    (habsent : ¬ s.frames.HasTable (slotOf page))
    (hwindow : s.frames.HasTable (slotOf (tablePage (ptAddr / 4096))))
    (hown : ¬ s.frames.OwnPage page) : ¬ u.frames.OwnPage page := by
  rintro (hdirectory | ⟨slot, hslot, heq⟩)
  · exact hown (Or.inl hdirectory)
  · by_cases hnew : slot = slotOf page
    · rw [hnew, hinstalled.table] at heq
      rw [← heq] at hwindow
      exact habsent hwindow
    · have hold := ((hinstalled.hasTable slot).mp hslot).resolve_right hnew
      have htable : u.frames.table slot = s.frames.table slot := by
        rw [Frames.table, Frames.table, hinstalled.directory, if_neg hnew]
      rw [htable] at heq
      exact hown (Or.inr ⟨slot, hold, heq⟩)

/-- An entry of a page at which no table is reached. -/
theorem Tables.set_entry (h : Tables s.frames) {page word : Nat}
    (hslot : s.frames.HasTable (slotOf page)) (hown : ¬ s.frames.OwnPage page) :
    Tables (s.frames.set (s.frames.table (slotOf page)) (indexOf page) word) :=
  h.mapped hslot (fun heq => hown (Or.inl heq)) fun slot hs heq => hown (Or.inr ⟨slot, hs, heq⟩)

/-- A call of `map_page` that keeps to the page tables changes one translation. -/
theorem Tables.mapPage_frames (h : Tables s.frames) (hp : p < 4294967296) (hv : v < 4294967296)
    (hkeeps : (MapCall.map p v flags).Keeps s) (hrun : mapPage p v flags s = .ok ((), s')) :
    Tables s'.frames ∧ ∀ w < 1048576, frameOf s'.frames w =
      if w = pageOf v then some (p / 4096) else frameOf s.frames w := by
  obtain ⟨hown, hfresh⟩ := hkeeps
  have hpage : pageOf v < 1048576 := by
    unfold pageOf
    omega
  have hbase : p / 4096 % 1048576 = p / 4096 := Nat.mod_eq_of_lt (by omega)
  have hserves : Serves s (pageOf v) :=
    ⟨fun hslot heq => hown (Or.inr ⟨_, hslot, heq⟩), fun habsent i hi => (hfresh habsent i hi).1⟩
  rcases h.mapPage_cases hserves hv hrun with ⟨hslot, rfl⟩ | ⟨habsent, i, hi, hserve, rfl⟩
  · refine ⟨h.set_entry hslot hown, ?_⟩
    intro w hw
    by_cases hwv : w = pageOf v
    · rw [if_pos hwv, hwv, h.frameOf_mapped hslot, hbase]
    · rw [if_neg hwv, mapped_frames, frameOf, h.walk_mapped hslot hw hwv, frameOf]
  · obtain ⟨_, hreached, hclean⟩ := hfresh habsent i hi
    have hserve' : (s.take i).frames.CanServe (s.addr i) := hserve
    have hinstalled : Installed (s.take i) _ (slotOf (pageOf v)) (s.addr i) :=
      hserve'.installed h (slotOf_lt hpage) habsent
    generalize (s.take i).withTable (slotOf (pageOf v)) (s.addr i) = u at hinstalled
    have hslot : u.frames.HasTable (slotOf (pageOf v)) :=
      (hinstalled.hasTable _).mpr (Or.inr rfl)
    have hown' := hinstalled.not_ownPage habsent hserve.window hown
    refine ⟨hinstalled.tables.set_entry hslot hown', ?_⟩
    intro w hw
    by_cases hwv : w = pageOf v
    · rw [if_pos hwv, hwv, hinstalled.tables.frameOf_mapped hslot, hbase]
    · rw [if_neg hwv, mapped_frames, frameOf, hinstalled.tables.walk_mapped hslot hw hwv, ← frameOf]
      exact hinstalled.frameOf_eq hpage habsent hreached hclean hw hwv

/-- A call of `unmap_page` that keeps to the page tables removes one translation, unless it is
for page 0. -/
theorem Tables.unmapPage_frames (h : Tables s.frames) (hv : v < 4294967296)
    (hown : ¬ s.frames.OwnPage (pageOf v)) {r : Option Bool}
    (hrun : unmapPage v F_KERN s = .ok (r, s')) :
    Tables s'.frames ∧ ∀ w < 1048576, frameOf s'.frames w =
      if w = pageOf v ∧ v ≠ 0 then none else frameOf s.frames w := by
  by_cases hzero : v = 0
  · subst hzero
    cases hrun
    refine ⟨h, fun w _ => ?_⟩
    rw [if_neg fun hand => hand.2 rfl]
  · have hpage : pageOf v < 1048576 := by
      unfold pageOf
      omega
    obtain rfl := unmapPage_returns hzero (by decide) hrun
    obtain ⟨d, hd, hrest⟩ := (unmapPage_eq_ok_iff hzero hv (by decide)).mp hrun
    obtain rfl := Option.some.inj (h.directory.symm.trans hd)
    split at hrest
    · rename_i habsent
      subst hrest
      refine ⟨h, fun w _ => ?_⟩
      split
      · rename_i hwv
        rw [hwv.1, frameOf, walk_eq_none_of_absent habsent]
        rfl
      · rfl
    · rename_i hpresent
      have hslot : s.frames.HasTable (slotOf (pageOf v)) :=
        ⟨slotOf_lt hpage, by simpa using hpresent⟩
      obtain ⟨g, hg, rfl⟩ := hrest
      obtain rfl := Option.some.inj ((h.reachable _ hslot).symm.trans hg)
      refine ⟨h.set_entry hslot hown, fun w hw => ?_⟩
      by_cases hwv : w = pageOf v
      · rw [if_pos ⟨hwv, hzero⟩, hwv, frameOf]
        have hnone : walk (s.frames.clear (s.frames.table (slotOf (pageOf v)))
            (indexOf (pageOf v))) (pageOf v) = none := by
          refine walk_eq_none_iff.mpr (Or.inr ?_)
          rw [show Frames.table (s.frames.clear _ _) _ = _ from baseAddr_clear _ _]
          exact present_clear_self
        exact congrArg _ hnone
      · rw [if_neg fun hand => hwv hand.1, frameOf, frameOf]
        exact congrArg _ (h.walk_mapped hslot hw hwv)

end Calls

/-! ## Runs -/

/-- The tables are sound, the history is one of aligned calls, and the translations are those
of the calls. -/
structure LookupRun.Sound (k : LookupRun) : Prop where
  tables : Tables k.state.frames
  aligned : ∀ c ∈ k.history, c.Aligned
  translations : ∀ w < 1048576, frameOf k.state.frames w = translated k.origin k.history w

theorem LookupRun.Sound.step {k k' : LookupRun} {c : MapCall} (h : k.Sound)
    (hkeeps : c.Keeps k.state) (hstep : lookupMachine.step k c k') : k'.Sound := by
  obtain ⟨haligned, hreturns, horigin, hhistory⟩ := hstep
  have hcalls : ∀ c' ∈ k'.history, c'.Aligned := by
    rw [hhistory]
    intro c' hc'
    rcases List.mem_cons.mp hc' with rfl | hc'
    · exact haligned
    · exact h.aligned c' hc'
  cases c with
  | map p v flags =>
      obtain ⟨htables, hframes⟩ := h.tables.mapPage_frames haligned.1 haligned.2.1 hkeeps hreturns
      refine ⟨htables, hcalls, fun w hw => ?_⟩
      rw [hframes w hw, horigin, hhistory, translated, Function.update_apply, h.translations w hw]
  | unmap v =>
      obtain ⟨r, hrun⟩ := hreturns
      obtain ⟨htables, hframes⟩ := h.tables.unmapPage_frames haligned.1 hkeeps.1 hrun
      refine ⟨htables, hcalls, fun w hw => ?_⟩
      rw [hframes w hw, horigin, hhistory, translated, h.translations w hw]
      by_cases hzero : v = 0
      · rw [if_pos hzero, if_neg fun hand => hand.2 hzero]
      · rw [if_neg hzero, Function.update_apply]
        by_cases hwv : w = pageOf v
        · rw [if_pos ⟨hwv, hzero⟩, if_pos hwv]
        · rw [if_neg fun hand => hwv hand.1, if_neg hwv]

/-- Along a run that keeps to the page tables. -/
theorem lookupRun_sound {k : LookupRun}
    (run : lookupMachine.Reach (fun k c => c.Keeps k.state) k) : k.Sound := by
  refine run.invariant ?_ fun k c k' h hkeeps hstep => h.step hkeeps hstep
  rintro k ⟨htables, horigin, hhistory⟩
  refine ⟨htables, ?_, fun w _ => ?_⟩
  · rw [hhistory]
    exact fun c hc => absurd hc List.not_mem_nil
  · rw [hhistory, horigin]
    rfl

/-! ## What the history says -/

section History

variable {origin : Frames} {history : List MapCall} {page : Nat}

/-- A call about another page. -/
theorem translated_cons_of_ne {c : MapCall} (hne : c.page ≠ page) :
    translated origin (c :: history) page = translated origin history page := by
  cases c with
  | map p v flags =>
      have hpage : page ≠ pageOf v := fun heq => hne heq.symm
      rw [translated, Function.update_of_ne hpage]
  | unmap v =>
      have hpage : page ≠ pageOf v := fun heq => hne heq.symm
      rw [translated]
      split
      · rfl
      · rw [Function.update_of_ne hpage]

/-- Where no call is about a page, it is as it was. -/
theorem translated_of_latest_none (h : latest history page = none) :
    translated origin history page = frameOf origin page := by
  induction history with
  | nil => rfl
  | cons c rest ih =>
      have hne : c.page ≠ page := by
        simpa using List.find?_eq_none.mp h c List.mem_cons_self
      have hrest : latest rest page = none := by
        rw [latest, List.find?_eq_none] at h ⊢
        exact fun c' hc' => h c' (List.mem_cons_of_mem _ hc')
      rw [translated_cons_of_ne hne, ih hrest]

/-- The page of the latest `map_page`. -/
theorem translated_of_latest_map {p v flags : Nat}
    (h : latest history page = some (.map p v flags)) :
    translated origin history page = some (p / 4096) := by
  induction history with
  | nil => cases h
  | cons c rest ih =>
      rw [latest, List.find?_cons] at h
      split at h
      · rename_i hc
        cases h
        have hpage : pageOf v = page := of_decide_eq_true hc
        rw [translated, hpage, Function.update_self]
      · rename_i hc
        have hne : c.page ≠ page := of_decide_eq_false hc
        rw [translated_cons_of_ne hne, ih h]

/-- The page of the latest `unmap_page`, unless it is page 0. -/
theorem translated_of_latest_unmap {v : Nat} (h : latest history page = some (.unmap v))
    (hpage : page ≠ 0) : translated origin history page = none := by
  induction history with
  | nil => cases h
  | cons c rest ih =>
      rw [latest, List.find?_cons] at h
      split at h
      · rename_i hc
        cases h
        have hpage' : pageOf v = page := of_decide_eq_true hc
        have hv : v ≠ 0 := by
          rintro rfl
          exact hpage hpage'.symm
        rw [translated, if_neg hv, hpage', Function.update_self]
      · rename_i hc
        have hne : c.page ≠ page := of_decide_eq_false hc
        rw [translated_cons_of_ne hne, ih h]

/-- Page 0 is never unmapped. -/
theorem translated_zero_eq_none_iff (haligned : ∀ c ∈ history, c.Aligned) :
    translated origin history 0 = none ↔ frameOf origin 0 = none ∧
      ∀ p v flags, .map p v flags ∈ history → pageOf v ≠ 0 := by
  induction history with
  | nil => exact ⟨fun h => ⟨h, fun _ _ _ hc => absurd hc List.not_mem_nil⟩, fun h => h.1⟩
  | cons c rest ih =>
      have hrest := ih fun c' hc' => haligned c' (List.mem_cons_of_mem _ hc')
      cases c with
      | map p v flags =>
          rw [translated, Function.update_apply]
          by_cases hzero : pageOf v = 0
          · rw [if_pos hzero.symm]
            refine iff_of_false (by simp) fun h => ?_
            exact h.2 p v flags List.mem_cons_self hzero
          · rw [if_neg (Ne.symm hzero), hrest]
            refine and_congr_right fun _ => ⟨fun h => ?_, fun h => ?_⟩
            · intro p' v' flags' hc
              rcases List.mem_cons.mp hc with heq | hc
              · cases heq
                exact hzero
              · exact h p' v' flags' hc
            · exact fun p' v' flags' hc => h p' v' flags' (List.mem_cons_of_mem _ hc)
      | unmap v =>
          have hsame : translated origin (.unmap v :: rest) 0 = translated origin rest 0 := by
            rw [translated]
            split
            · rfl
            · rename_i hv
              have hmod := (haligned _ List.mem_cons_self).2
              rw [Function.update_of_ne]
              unfold pageOf
              omega
          rw [hsame, hrest]
          refine and_congr_right fun _ => ⟨fun h => ?_, fun h => ?_⟩
          · intro p' v' flags' hc
            exact h p' v' flags' ((List.mem_cons.mp hc).resolve_left (by simp))
          · exact fun p' v' flags' hc => h p' v' flags' (List.mem_cons_of_mem _ hc)

end History

/-- The answer is right just for an absent page. -/
theorem answer_eq_noAddr_iff {frame : Option Nat} (h : ∀ f, frame = some f → f < 1048576) :
    answer frame = NO_ADDR ↔ frame = none := by
  cases frame with
  | none => exact ⟨fun _ => rfl, fun _ => rfl⟩
  | some f =>
      have hf := h f rfl
      refine iff_of_false ?_ (by simp)
      change ¬ f / 4096 = 4294967295
      omega

/-- A page translates to a frame with a number of 20 bits. -/
theorem frameOf_lt {m : Frames} {page f : Nat} (h : frameOf m page = some f) : f < 1048576 := by
  obtain ⟨mapping, hwalk, rfl⟩ := Option.map_eq_some_iff.mp h
  rw [walk] at hwalk
  split at hwalk
  · cases hwalk
    exact baseAddr_lt _
  · cases hwalk

/-- In a run that keeps to the page tables `lookup_phys` is right for a page exactly where it
has been mapped to physical address 0 or is not mapped, and has not been page 0. -/
theorem lookup_phys_inverts_map_page_iff {k : LookupRun}
    (run : lookupMachine.Reach (fun k c => c.Keeps k.state) k) {v : Nat} (hv : v < 4294967296) :
    LookupRight k v ↔ LookupFits k v := by
  have h := lookupRun_sound run
  have hpage : pageOf v < 1048576 := by
    unfold pageOf
    omega
  have hrun : lookupPhys v false k.state =
      .ok (answer (translated k.origin k.history (pageOf v)), k.state) := by
    rw [h.tables.lookupPhys_run hv, h.translations _ hpage]
  have hbound : ∀ f, translated k.origin k.history (pageOf v) = some f → f < 1048576 := by
    intro f hf
    rw [← h.translations _ hpage] at hf
    exact frameOf_lt hf
  unfold LookupRight LookupFits
  split
  · rename_i p v' flags hlatest
    obtain ⟨hp, _, hmod, _⟩ := h.aligned _ (List.mem_of_find?_eq_some hlatest)
    rw [hrun, translated_of_latest_map hlatest, Except.ok.injEq, Prod.mk.injEq, and_iff_left rfl]
    change p / 4096 / 4096 = p ↔ p = 0
    omega
  · rename_i v' hlatest
    rw [hrun, Except.ok.injEq, Prod.mk.injEq, and_iff_left rfl, answer_eq_noAddr_iff hbound]
    by_cases hzero : pageOf v = 0
    · rw [hzero, translated_zero_eq_none_iff h.aligned]
      exact ⟨Or.inr, fun hfits => hfits.resolve_left (not_not.mpr rfl)⟩
    · exact iff_of_true (translated_of_latest_unmap hlatest hzero) (Or.inl hzero)
  · rename_i hlatest
    refine iff_of_true (fun hnone => ?_) trivial
    rw [hrun, translated_of_latest_none hlatest, hnone]
    rfl

/-- No table of the boot state is reached at page 0x400. -/
theorem blankBoot_not_ownPage : ¬ blankBoot.frames.OwnPage (pageOf 0x400000) := by
  obtain ⟨hpaged, _, _⟩ := blankBoot_serves
  rintro (hdirectory | ⟨slot, hslot, heq⟩)
  · exact absurd hdirectory (by decide)
  · have hlow : pageOf 0x400000 < kernelPage := by decide
    rw [tablePage_window (hpaged.low slot hslot)] at heq
    omega

/-- The boot state with nothing called. -/
theorem lookupStart_blankBoot : lookupMachine.start ⟨blankBoot.frames, blankBoot, []⟩ := by
  obtain ⟨hpaged, _, _⟩ := blankBoot_serves
  refine ⟨hpaged.tables, ?_, rfl⟩
  dsimp only

/-- An identity page of the boot state is not found any more once it is unmapped. -/
theorem lookup_phys_after_unmap_page : ∃ k, lookupMachine.Reachable k ∧
    k.history = [.unmap 0x400000] ∧ LookupRight k 0x400000 := by
  obtain ⟨hpaged, _, _⟩ := blankBoot_serves
  have hreached : blankBoot.frames.EntryReached (pageOf 0x400000) :=
    hpaged.tables.entryReached (by decide)
  have hkern : fKern F_KERN = true := by decide
  obtain ⟨s', hrun, _⟩ := (unmapsPage_iff_reached (by decide) (by decide) (by decide) hkern).mpr
    hreached
  have hkeeps : (MapCall.unmap 0x400000).Keeps blankBoot := ⟨blankBoot_not_ownPage, trivial⟩
  have hstep : lookupMachine.step ⟨blankBoot.frames, blankBoot, []⟩ (.unmap 0x400000)
      ⟨blankBoot.frames, s', [.unmap 0x400000]⟩ := by
    refine ⟨⟨by decide, by decide⟩, ⟨_, hrun⟩, ?_, ?_⟩
    · dsimp only
    · dsimp only
  refine ⟨_, .step (.start lookupStart_blankBoot) trivial hstep, rfl, ?_⟩
  refine (lookup_phys_inverts_map_page_iff
    (.step (.start lookupStart_blankBoot) hkeeps hstep) (by decide)).mpr ?_
  have hlatest : latest [.unmap 0x400000] (pageOf 0x400000) = some (.unmap 0x400000) := by decide
  rw [LookupFits, hlatest]
  exact Or.inl (by decide)

/-- Frame 0x300 is found at physical address 0. -/
theorem lookup_phys_does_not_invert_map_page :
    ¬ ∀ k, lookupMachine.Reachable k → ∀ v < 4294967296, LookupRight k v := by
  intro h
  have hstep : lookupMachine.step ⟨blankBoot.frames, blankBoot, []⟩ (.map 0x300000 0x400000 F_KERN)
      ⟨blankBoot.frames, blankBoot.mapped (pageOf 0x400000) 0x300000 F_KERN,
        [.map 0x300000 0x400000 F_KERN]⟩ := by
    refine ⟨⟨by decide, by decide, by decide, by decide⟩, blankBoot_mapPage F_KERN, ?_, ?_⟩
    · dsimp only
    · dsimp only
  have hright := h _ (.step (.start lookupStart_blankBoot) trivial hstep) 0x400000 (by decide)
  have hlatest : latest [.map 0x300000 0x400000 F_KERN] (pageOf 0x400000) =
      some (.map 0x300000 0x400000 F_KERN) := by decide
  rw [LookupRight, hlatest] at hright
  obtain ⟨hpaged, hslot, _⟩ := blankBoot_serves
  have hkeeps : (MapCall.map 0x300000 0x400000 F_KERN).Keeps blankBoot :=
    ⟨blankBoot_not_ownPage, fun habsent => absurd hslot habsent⟩
  obtain ⟨htables, hframes⟩ := hpaged.tables.mapPage_frames (by decide) (by decide) hkeeps
    (blankBoot_mapPage F_KERN)
  have hrun := htables.lookupPhys_run (v := 0x400000) (by decide)
  rw [hframes _ (by decide), if_pos rfl] at hrun
  have heq := congrArg Prod.fst (Except.ok.inj (hrun.symm.trans hright))
  exact absurd heq (by decide)

end NickOS3.Paging
