import NickOS3.Foundation.Runs
import NickOS3.Paging.Setup

/-!
# Runs of the page allocator

A run starts with the boot tables over arbitrary memory. It goes through the steps of `boot`
in their order, with calls of the allocator after `setupAvailablePages` and after
`paging_init`. A step is a call that returns.
-/

namespace NickOS3.Paging

open Foundation Program

/-- How far `boot` has come. -/
inductive Stage
  | booted
  | available
  | cleared
  | pooled
  | ready
  deriving DecidableEq

/-- The calls of a run; `paging_init` is cut into its three parts. -/
inductive Call
  | setupAvailablePages (regions : List MemoryMapEntry)
  | clearIdentityPages
  | initKernelPool
  | initKernelHeap
  | getNextFreePhysicalPage
  | pallocKern (numPages : Int) (flags : Nat)
  | pallocHeap (numPages : Int) (memPool flags : Nat)

/-- What a call does. -/
def Call.run : Call → PageM Unit
  | .setupAvailablePages regions => Paging.setupAvailablePages regions
  | .clearIdentityPages => Paging.clearIdentityPages
  | .initKernelPool => Paging.initKernelPool
  | .initKernelHeap => Paging.initKernelHeap
  | .getNextFreePhysicalPage => do
      let _ ← Paging.getNextFreePhysicalPage
      pure ()
  | .pallocKern numPages flags => do
      let _ ← Paging.pallocKern numPages flags
      pure ()
  | .pallocHeap numPages memPool flags => do
      let _ ← Paging.pallocHeap numPages memPool flags
      pure ()

/-- The stage a call leads to; `none` where the kernel does not make the call. -/
def Call.next : Call → Stage → Option Stage
  | .setupAvailablePages _, .booted => some .available
  | .clearIdentityPages, .available => some .cleared
  | .initKernelPool, .cleared => some .pooled
  | .initKernelHeap, .pooled => some .ready
  | .getNextFreePhysicalPage, .available => some .available
  | .getNextFreePhysicalPage, .ready => some .ready
  | .pallocKern _ _, .available => some .available
  | .pallocKern _ _, .ready => some .ready
  | .pallocHeap _ _ _, .ready => some .ready
  | _, _ => none

/-- The kernel, and the memory map that `setupAvailablePages` was given. -/
structure PagingRun where
  state : PagingState
  stage : Stage
  regions : List MemoryMapEntry

def Call.regions (old : List MemoryMapEntry) : Call → List MemoryMapEntry
  | .setupAvailablePages regions => regions
  | _ => old

/-- The state in which the kernel starts. -/
structure AtBoot (s : PagingState) : Prop where
  frames : ∃ m, s.frames = bootMemory m
  entries : s.physicalPageEntries = fun _ => ⟨.unset, 0⟩
  returned : s.returned = []
  installed : s.installed = []

/-- A call is made and returns. -/
structure PagingRun.Step (k : PagingRun) (c : Call) (k' : PagingRun) : Prop where
  usable : ∀ regions, c = .setupAvailablePages regions → UsableMap regions
  stage : c.next k.stage = some k'.stage
  returns : c.run k.state = .ok ((), k'.state)
  regions : k'.regions = c.regions k.regions

def pagingMachine : Machine PagingRun Call where
  start k := k.stage = .booted ∧ k.regions = [] ∧ AtBoot k.state
  step := PagingRun.Step

section Calls

variable {I : PagingState → Prop} {k k' : PagingRun} {c : Call}

/-- The first call sets the table up; every later one finds it. -/
theorem PagingRun.Step.setup_or_later (h : k.Step c k') :
    (∃ regions, c = .setupAvailablePages regions ∧ UsableMap regions ∧ k.stage = .booted ∧
      k'.stage = .available ∧ k'.regions = regions) ∨
    (∀ regions, c ≠ .setupAvailablePages regions) ∧ k.stage ≠ .booted ∧
      k'.stage ≠ .booted ∧ k'.regions = k.regions := by
  have hstage := h.stage
  have hregions := h.regions
  have husable := h.usable
  cases c <;> cases hk : k.stage <;> rw [hk] at hstage <;>
    simp only [Call.next, reduceCtorEq, Option.some.injEq] at hstage
  case setupAvailablePages.booted regions =>
    exact .inl ⟨regions, rfl, husable regions rfl, rfl, hstage.symm, hregions⟩
  all_goals
    refine .inr ⟨fun _ => Call.noConfusion, Stage.noConfusion, ?_, hregions⟩
    rw [← hstage]
    exact Stage.noConfusion

/-- A statement about frames and their table survives every call but the first. -/
theorem FrameStable.call (h : FrameStable I)
    (hc : ∀ regions, c ≠ .setupAvailablePages regions) : Keeps I c.run := by
  cases c with
  | setupAvailablePages regions => exact absurd rfl (hc regions)
  | clearIdentityPages => exact h.clearIdentityPages
  | initKernelPool => exact h.initKernelPool
  | initKernelHeap => exact h.initKernelHeap
  | getNextFreePhysicalPage => exact h.getNextFree.bind fun _ => Keeps.pure
  | pallocKern numPages flags => exact (h.pallocKern _ _).bind fun _ => Keeps.pure
  | pallocHeap numPages memPool flags => exact (h.pallocHeap _ _ _).bind fun _ => Keeps.pure

end Calls

section Setup

variable {s : PagingState} {regions : List MemoryMapEntry}

/-- The free entries once the reserved ones are marked. -/
theorem free_reservedTable {i : Nat} (hi : i < MAX_PHYS_PAGES)
    (hfree : (reservedTable regions (fun _ => ⟨.unset, 0⟩) i).type = .free) :
    ¬ ReservedEntry i ∧ ∃ r x, pageAt regions i = some (r, x) ∧
      (reservedTable regions (fun _ => ⟨.unset, 0⟩) i).physAddr = u32 (r.base + x * 4096) := by
  unfold reservedTable at hfree ⊢
  by_cases hreserved : ReservedEntry i
  · rw [if_pos hreserved] at hfree
    cases hfree
  · rw [if_neg hreserved] at hfree ⊢
    rw [fillTable_eq _ _ _ (Nat.zero_le _) hi, if_neg (Nat.not_lt_zero i), Nat.sub_zero] at hfree ⊢
    refine ⟨hreserved, ?_⟩
    cases hpage : pageAt regions i with
    | none =>
        rw [hpage] at hfree
        cases hfree
    | some page =>
        obtain ⟨r, x⟩ := page
        refine ⟨r, x, rfl, ?_⟩
        unfold MemoryMapEntry.baseAddr PGSIZE u32
        dsimp only
        omega

/-- What `setupAvailablePages` has done before it allocates `base_pd`. -/
structure Prepared (regions : List MemoryMapEntry) (s u : PagingState) : Prop where
  paged : Paged u.frames
  tables : ∀ f, u.frames.IsTable f ↔ s.frames.IsTable f
  changes : ∀ heap, Changes heap s.frames u.frames
  directory : u.frames directoryFrame = s.frames directoryFrame
  data : ∀ f, ¬ s.frames.IsTable f → u.frames f = s.frames f
  free : ∀ i, u.Free i → ¬ ReservedEntry i ∧ ∃ r x, pageAt regions i = some (r, x) ∧
    u.addr i = u32 (r.base + x * 4096)
  entries : u.physicalPageEntries = reservedTable regions fun _ => ⟨.unset, 0⟩
  returned : u.returned = []
  installed : u.installed = []

theorem AtBoot.prepared (h : AtBoot s) (regions : List MemoryMapEntry) :
    ∃ u, setupAvailablePages regions s = setupBasePd u ∧ Prepared regions s u := by
  obtain ⟨m, hframes⟩ := h.frames
  have hpaged : Paged s.frames := hframes ▸ paged_bootMemory m
  obtain ⟨u, hrun, hentries, s₁, hframes₁, hreturned, hinstalled, _, _, hreserving⟩ :=
    hpaged.setupAvailablePages regions
  rw [h.entries] at hentries
  refine ⟨u, hrun, hreserving.paged, ?_, ?_, ?_, ?_, ?_, hentries, ?_, ?_⟩
  · intro f
    rw [hreserving.tables, hframes₁]
  · intro heap
    rw [← hframes₁]
    exact hreserving.changes heap
  · rw [hreserving.directory, hframes₁]
  · intro f hf
    rw [hreserving.data f (hframes₁ ▸ hf), hframes₁]
  · rintro i ⟨hi, htype⟩
    rw [hentries] at htype
    obtain ⟨hnot, r, x, hpage, haddr⟩ := free_reservedTable hi htype
    refine ⟨hnot, r, x, hpage, ?_⟩
    rw [PagingState.addr, hentries, haddr]
  · rw [hreserving.returned, hreturned, h.returned]
  · rw [hreserving.installed, hinstalled, h.installed]

theorem pageAt_le {i j : Nat} (hj : j ≤ i) {page : MemoryMapEntry × Nat}
    (h : pageAt regions i = some page) : ∃ page', pageAt regions j = some page' := by
  induction regions generalizing i j with
  | nil => cases h
  | cons r rest ih =>
      rw [pageAt] at h ⊢
      generalize r.maxPages.toNat = k at h ⊢
      by_cases hlt : j < k
      · rw [if_pos hlt]
        exact ⟨_, rfl⟩
      · rw [if_neg hlt]
        rw [if_neg (by omega)] at h
        exact ih (by omega) h

/-- An entry that is not reserved is free when the map has a page for it. -/
theorem Prepared.free_of_page {u : PagingState} (h : Prepared regions s u) {i : Nat}
    (hi : i < MAX_PHYS_PAGES) (hnot : ¬ ReservedEntry i) {page : MemoryMapEntry × Nat}
    (hpage : pageAt regions i = some page) : u.Free i := by
  refine ⟨hi, ?_⟩
  rw [h.entries, reservedTable, if_neg hnot, fillTable_eq _ _ _ (Nat.zero_le _) hi,
    if_neg (Nat.not_lt_zero _), Nat.sub_zero, hpage]

theorem Prepared.least {u : PagingState} (h : Prepared regions s u) {j : Nat} (hj : u.Free j) :
    32 ≤ j := by
  by_contra hlt
  exact (h.free j hj).1 (.inl (by omega))

/-- Entry 32 is the first free one as soon as any is free. -/
theorem Prepared.firstFree {u : PagingState} (h : Prepared regions s u) {j : Nat}
    (hj : firstFree u.physicalPageEntries = some j) : j = 32 := by
  have hfree := firstFree_eq_some hj
  obtain ⟨_, r, x, hpage, _⟩ := h.free j hfree
  obtain ⟨page, hpage'⟩ := pageAt_le (h.least hfree) hpage
  exact Nat.le_antisymm (le_of_firstFree hj (h.free_of_page (by decide) (by decide) hpage'))
    (h.least hfree)

/-- A run has made no call yet. -/
def PagingRun.Booted (k : PagingRun) : Prop :=
  k.stage = .booted ∧ k.regions = [] ∧ AtBoot k.state

/-- A stable statement that holds when the table has been set up holds in every later state. -/
theorem reach_of_prepared {allowed : PagingRun → Call → Prop}
    {I : List MemoryMapEntry → PagingState → Prop} (hstable : ∀ regions, FrameStable (I regions))
    (hsetup : ∀ k regions u, allowed k (.setupAvailablePages regions) → UsableMap regions →
      Prepared regions k.state u → I regions u)
    {k : PagingRun} (run : pagingMachine.Reach allowed k) :
    k.Booted ∨ k.stage ≠ .booted ∧ I k.regions k.state := by
  induction run with
  | start h => exact .inl h
  | @step k k' c _ ok h ih =>
      right
      rcases h.setup_or_later with ⟨regions, rfl, hmap, hbooted, hnext, hregions⟩ |
        ⟨hc, hlater, hnext, hregions⟩
      · rcases ih with ⟨_, _, hboot⟩ | ⟨hnot, _⟩
        · obtain ⟨u, hrun, hprepared⟩ := hboot.prepared regions
          refine ⟨by simp [hnext], ?_⟩
          rw [hregions]
          exact (hstable regions).setupBasePd u (hsetup k regions u ok hmap hprepared) () k'.state
            (hrun ▸ h.returns)
        · exact absurd hbooted hnot
      · rcases ih with ⟨hbooted, _⟩ | ⟨_, hinv⟩
        · exact absurd hbooted hlater
        · refine ⟨hnext, ?_⟩
          rw [hregions]
          exact (hstable k.regions).call hc k.state hinv () k'.state h.returns

end Setup

end NickOS3.Paging
