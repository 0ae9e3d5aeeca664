import Mathlib.Data.List.Sort
import NickOS3.Paging.Initialisation

/-!
# Memory that is not cleared

After `setupAvailablePages` the outcome of `paging_init` depends on the word of the first free
frame that becomes `next_free_page_index`, and on whether the three frames of the pool lie one
behind the other.
-/

namespace NickOS3.Paging

open Foundation Program

/-- What the kernel's variables say of the index of the pool, at the page of the first free frame,
is what memory holds there. -/
def PagingState.PoolInMemory (s : PagingState) : Prop :=
  ∀ j, firstFree s.physicalPageEntries = some j →
    s.index (kptov (s.addr j)) = int32 (s.frames (s.addr j / 4096) 1 : Nat)

/-- That word of memory is 0. -/
def PagingState.PoolZero (s : PagingState) : Prop :=
  ∀ j, firstFree s.physicalPageEntries = some j →
    s.frames (s.addr j / 4096) 1 % 4294967296 = 0

/-- What `paging_init` is for. The pool lies in the window, on pages of frames of its own that have
just been taken, with the index 1; and page 0 has a frame of its own that holds one segment. -/
structure Initialises (s s' : PagingState) : Prop where
  window : kernelPage ≤ pageOf s'.kernelPool
  pool : Contiguous s s' s'.kernelPool poolPages
  poolOwn : ∀ k < poolPages, ∀ frame,
    frameOf s'.frames (pageOf (s'.kernelPool + k * PGSIZE)) = some frame → ¬ s'.frames.IsTable frame
  index : s'.index s'.kernelPool = 1
  heap : ∃ frame, frameOf s'.frames 0 = some frame ∧ TookFrame s s' frame ∧
    ¬ s'.frames.IsTable frame ∧ (∀ k < poolPages,
      frameOf s'.frames (pageOf (s'.kernelPool + k * PGSIZE)) ≠ some frame) ∧
    OneSegment s'.frames frame

/-- The window is mapped, and the first five free entries name different frames of it that are no
page tables. -/
def PagingState.SuppliesFive (s : PagingState) : Prop := ∃ l rest, l.length = 5 ∧ Supply s l rest

/-- `paging_init` completes and does that. -/
def PagingInitialises (s : PagingState) : Prop :=
  ∃ s', pagingInit s = .ok ((), s') ∧ Initialises s s'

section Initialises

variable {s s' : PagingState}

/-- A word of 32 bits is 0 as an `int` where it is 0. -/
theorem int32_eq_zero_iff {word : Nat} : int32 (word : Nat) = 0 ↔ word % 4294967296 = 0 := by
  unfold int32
  rw [Int.bmod_def]
  split <;> omega

theorem five_entries {l : List Nat} (h : l.length = 5) :
    ∃ i₁ i₂ i₃ i₄ i₅, l = [i₁, i₂, i₃, i₄, i₅] := by
  match l, h with
  | [i₁, i₂, i₃, i₄, i₅], _ => exact ⟨i₁, i₂, i₃, i₄, i₅, rfl⟩

/-- So it is in a run that keeps apart from the page tables, with five free frames. -/
theorem suppliesFive_of_reach {k : PagingRun} (run : pagingMachine.Reach (fun k c => c.Apart k) k)
    (hstage : k.stage = .available) (hframes : 5 ≤ k.state.freeEntries.length) :
    k.state.SuppliesFive := by
  have hbooted : k.stage ≠ .booted := by
    rw [hstage]
    exact nofun
  have hsound := ((reach_sound run).resolve_left fun h => hbooted h.1).2
  exact ⟨k.state.freeEntries.take 5, k.state.freeEntries.drop 5, List.length_take_of_le hframes,
    hsound.supply (List.take_append_drop 5 _).symm⟩

/-- The frames that have been taken where just some entries have been allocated. -/
theorem tookFrame_iff {l : List Nat} {frame : Nat} (hfree : ∀ i ∈ l, s.Free i)
    (hentries : ∀ i, s'.physicalPageEntries i = if i ∈ l then
      { s.physicalPageEntries i with type := .allocated } else s.physicalPageEntries i) :
    TookFrame s s' frame ↔ ∃ i ∈ l, s.addr i / 4096 = frame := by
  constructor
  · rintro ⟨i, hi, hallocated, hframe⟩
    rw [hentries] at hallocated
    split at hallocated
    · rename_i hmem
      exact ⟨i, hmem, hframe⟩
    · rw [hi.2] at hallocated
      cases hallocated
  · rintro ⟨i, hmem, hframe⟩
    refine ⟨i, hfree i hmem, ?_, hframe⟩
    rw [hentries, if_pos hmem]

/-- What `paging_init` leaves where it completes: the five first free frames have been taken, the
fourth for page 0 and the fifth for its page table. -/
structure Completes (s s' : PagingState) (i₁ i₂ i₃ i₄ i₅ : Nat) : Prop where
  took : ∀ frame, TookFrame s s' frame ↔ ∃ i ∈ [i₁, i₂, i₃, i₄, i₅], s.addr i / 4096 = frame
  paged : Paged s'.frames
  isTable : ∀ f, s'.frames.IsTable f → s.frames.IsTable f ∨ f = s.addr i₅ / 4096
  table : s'.frames.IsTable (s.addr i₅ / 4096)
  page : frameOf s'.frames 0 = some (s.addr i₄ / 4096)
  heap : OneSegment s'.frames (s.addr i₄ / 4096)
  index : s'.index s'.kernelPool = 1
  kernelPool : s'.kernelPool = kptov (s.addr i₁)

section Completes

variable {i₁ i₂ i₃ i₄ i₅ : Nat} {rest : List Nat}

theorem Supply.free {l : List Nat} (h : Supply s l rest) {i : Nat} (hi : i ∈ l) : s.Free i := by
  rw [← mem_freeEntries, h.entries]
  exact List.mem_append_left _ hi

/-- `paging_init` completes where the index it finds is 0, and panics where it is not. -/
theorem Supply.pagingInit_run (h : Supply s [i₁, i₂, i₃, i₄, i₅] rest) :
    (s.index (kptov (s.addr i₁)) = 0 →
      ∃ s', Paging.pagingInit s = .ok ((), s') ∧ Completes s s' i₁ i₂ i₃ i₄ i₅) ∧
    (s.index (kptov (s.addr i₁)) ≠ 0 → Paging.pagingInit s = .error .panic) := by
  obtain ⟨t, hinit, hsupply, hkernel, hpools, habsent, hsub, hentries⟩ :=
    h.pagingInit
  have hindex : t.index (kptov (s.addr i₁)) = s.index (kptov (s.addr i₁)) := by
    rw [PagingState.index, PagingState.index, hpools]
  have haddr : ∀ i, t.addr i = s.addr i := by
    intro i
    rw [PagingState.addr, PagingState.addr, hentries]
    split <;> rfl
  constructor
  · intro hzero
    obtain ⟨s', hrun, hstarts⟩ := hsupply.initHeapPage habsent (hindex.trans hzero) F_KERN
    refine ⟨s', hinit.trans hrun, ?_⟩
    have hall : ∀ i, s'.physicalPageEntries i = if i ∈ [i₁, i₂, i₃, i₄, i₅] then
        { s.physicalPageEntries i with type := .allocated } else s.physicalPageEntries i := by
      intro i
      rw [hstarts.entries, hentries, show [i₁, i₂, i₃, i₄, i₅] = [i₁, i₂, i₃] ++ [i₄, i₅] from rfl]
      by_cases hfirst : i ∈ [i₁, i₂, i₃]
      · by_cases hlast : i ∈ [i₄, i₅]
        · rw [if_pos hlast, if_pos hfirst, if_pos (List.mem_append_left _ hfirst)]
        · rw [if_neg hlast, if_pos hfirst, if_pos (List.mem_append_left _ hfirst)]
      · by_cases hlast : i ∈ [i₄, i₅]
        · rw [if_pos hlast, if_neg hfirst, if_pos (List.mem_append_right _ hlast)]
        · rw [if_neg hlast, if_neg hfirst, if_neg]
          exact fun hmem => (List.mem_append.mp hmem).elim hfirst hlast
    have hkernel' := hstarts.kernelPool.trans hkernel
    constructor
    · exact fun frame => tookFrame_iff (fun i hi => h.free hi) hall
    · exact hstarts.paged
    · intro f hf
      rw [hstarts.isTable, haddr] at hf
      exact hf.imp_left (hsub f)
    · rw [hstarts.isTable, haddr]
      exact .inr rfl
    · rw [← haddr]
      exact hstarts.page
    · rw [← haddr]
      exact hstarts.heap
    · rw [hkernel']
      exact hstarts.index
    · exact hkernel'
  · intro hne
    rw [hinit, Paging.initHeapPage]
    refine bind_run_of_error ?_
    rw [checkFresh, if_pos (hindex ▸ hne)]

/-- Different entries of the supply name different frames. -/
theorem Supply.frame_injective {l : List Nat} (h : Supply s l rest) {i j : Nat} (hi : i ∈ l)
    (hj : j ∈ l) (heq : s.addr i / 4096 = s.addr j / 4096) : i = j :=
  h.distinct i hi j hj (Paging.frame_injective (h.usable i hi).1 (h.usable j hj).1 heq)

/-- The frames of the pool are the first three that were given out. -/
theorem Supply.consecutive_of_initialises (h : Supply s [i₁, i₂, i₃, i₄, i₅] rest)
    (hs : Completes s s' i₁ i₂ i₃ i₄ i₅) (hinit : Initialises s s') :
    FramesConsecutive s poolPages := by
  have hpages : poolPages = 3 := by decide
  have htake : s.freeEntries.take poolPages = [i₁, i₂, i₃] := by
    rw [h.entries, hpages]
    rfl
  obtain ⟨haligned, hlt, _⟩ := h.usable i₁ List.mem_cons_self
  intro j hj k hk
  obtain rfl : j = i₁ := Option.some.inj (hj.symm.trans h.firstFree)
  rw [htake]
  obtain ⟨frame, hframe, htook⟩ := hinit.pool.mapped k hk
  have hown := hinit.poolOwn k hk frame hframe
  obtain ⟨frame', hpage, _, _, hapart, _⟩ := hinit.heap
  obtain rfl := Option.some.inj (hs.page.symm.trans hpage)
  have hother := hapart k hk
  rw [hs.kernelPool] at hframe hother
  obtain ⟨_, heq⟩ := hs.paged.frameOf_kptov_add haligned hlt
    (by rw [hpages] at hk; unfold MAX_PHYS_PAGES; omega) hframe
  obtain ⟨i, hi, hiframe⟩ := (hs.took frame).mp htook
  refine ⟨i, ?_, hiframe.trans heq⟩
  have hne₄ : i ≠ i₄ := by
    rintro rfl
    exact hother (hiframe ▸ hframe)
  have hne₅ : i ≠ i₅ := by
    rintro rfl
    exact hown (hiframe ▸ hs.table)
  simpa [hne₄, hne₅] using hi

/-- The pages of the pool lead to the first three frames when these are consecutive. -/
theorem Supply.pool_frameOf {k : Nat} (h : Supply s [i₁, i₂, i₃, i₄, i₅] rest)
    (hs : Completes s s' i₁ i₂ i₃ i₄ i₅) (hconsecutive : FramesConsecutive s poolPages)
    (hk : k < poolPages) :
    ∃ i ∈ [i₁, i₂, i₃], s.addr i / 4096 = s.addr i₁ / 4096 + k ∧
      frameOf s'.frames (pageOf (s'.kernelPool + k * PGSIZE)) = some (s.addr i / 4096) := by
  have htake : s.freeEntries.take poolPages = [i₁, i₂, i₃] := by
    rw [h.entries, show poolPages = 3 by decide]
    rfl
  obtain ⟨haligned, hlt, _⟩ := h.usable i₁ List.mem_cons_self
  obtain ⟨i, hi, hframe⟩ := hconsecutive i₁ h.firstFree k hk
  rw [htake] at hi
  refine ⟨i, hi, hframe, ?_⟩
  have hin := (h.usable i (List.mem_of_mem_take (i := 3) hi)).2.1
  rw [hs.kernelPool, pageOf_kptov_add haligned hlt, ← hframe, ← tablePage_window hin]
  exact hs.paged.frameOf_window hin

/-- `paging_init` has done what it is for when the frames of the pool are consecutive. -/
theorem Supply.initialises_of_consecutive (h : Supply s [i₁, i₂, i₃, i₄, i₅] rest)
    (hs : Completes s s' i₁ i₂ i₃ i₄ i₅) (hconsecutive : FramesConsecutive s poolPages) :
    Initialises s s' := by
  have hmem₄ : i₄ ∈ [i₁, i₂, i₃, i₄, i₅] := by simp
  have hmem₅ : i₅ ∈ [i₁, i₂, i₃, i₄, i₅] := by simp
  have hnodup := freeEntries_nodup s
  rw [h.entries] at hnodup
  have hmem : ∀ i ∈ [i₁, i₂, i₃], i ∈ [i₁, i₂, i₃, i₄, i₅] := fun i hi =>
    List.mem_append_left [i₄, i₅] hi
  have hapart : ∀ i ∈ [i₁, i₂, i₃], i ≠ i₄ ∧ i ≠ i₅ := by
    intro i hi
    constructor
    · rintro rfl
      simp at hnodup hi
      omega
    · rintro rfl
      simp at hnodup hi
      omega
  have hnot : ∀ i ∈ [i₁, i₂, i₃, i₄, i₅], i ≠ i₅ → ¬ s'.frames.IsTable (s.addr i / 4096) := by
    intro i hi hne htable
    rcases hs.isTable _ htable with hold | heq
    · exact (h.usable i hi).2.2 hold
    · exact hne (h.frame_injective hi hmem₅ heq)
  have hne : i₄ ≠ i₅ := by
    simp at hnodup
    omega
  constructor
  · rw [hs.kernelPool]
    exact (h.usable i₁ List.mem_cons_self).kernelPage_le
  · constructor
    · intro k hk
      obtain ⟨i, hi, _, hframe⟩ := h.pool_frameOf hs hconsecutive hk
      exact ⟨_, hframe, (hs.took _).mpr ⟨i, hmem i hi, rfl⟩⟩
    · intro k hk k' hk' hne heq
      obtain ⟨i, _, hi, hframe⟩ := h.pool_frameOf hs hconsecutive hk
      obtain ⟨i', _, hi', hframe'⟩ := h.pool_frameOf hs hconsecutive hk'
      rw [hframe, hframe', hi, hi'] at heq
      have := Option.some.inj heq
      omega
  · intro k hk frame hframe
    obtain ⟨i, hi, _, hframe'⟩ := h.pool_frameOf hs hconsecutive hk
    obtain rfl := Option.some.inj (hframe'.symm.trans hframe)
    exact hnot i (hmem i hi) (hapart i hi).2
  · exact hs.index
  · refine ⟨_, hs.page, (hs.took _).mpr ⟨i₄, hmem₄, rfl⟩, hnot i₄ hmem₄ hne, ?_, hs.heap⟩
    intro k hk hframe
    obtain ⟨i, hi, _, hframe'⟩ := h.pool_frameOf hs hconsecutive hk
    have heq := Option.some.inj (hframe'.symm.trans hframe)
    exact (hapart i hi).1 (h.frame_injective (hmem i hi) hmem₄ heq)

/-- What `paging_init` is for is done exactly where the frames of the pool are consecutive. -/
theorem Supply.initialises_iff (h : Supply s [i₁, i₂, i₃, i₄, i₅] rest)
    (hs : Completes s s' i₁ i₂ i₃ i₄ i₅) : Initialises s s' ↔ FramesConsecutive s poolPages :=
  ⟨h.consecutive_of_initialises hs, h.initialises_of_consecutive hs⟩

end Completes

theorem Supply.poolZero_iff {i : Nat} {l rest : List Nat} (h : Supply s (i :: l) rest)
    (hpool : s.PoolInMemory) : s.PoolZero ↔ s.index (kptov (s.addr i)) = 0 := by
  rw [hpool i h.firstFree, int32_eq_zero_iff]
  constructor
  · exact fun hall => hall i h.firstFree
  · intro hword j hj
    obtain rfl := Option.some.inj (hj.symm.trans h.firstFree)
    exact hword

/-- `init_heap_page` panics where that word of memory is not 0. -/
theorem PagingInitialises.poolZero (h : PagingInitialises s) (hfive : s.SuppliesFive)
    (hpool : s.PoolInMemory) : s.PoolZero := by
  obtain ⟨l, rest, hlength, hsupply⟩ := hfive
  obtain ⟨i₁, i₂, i₃, i₄, i₅, rfl⟩ := five_entries hlength
  rw [hsupply.poolZero_iff hpool]
  by_contra hindex
  obtain ⟨s', hrun, -⟩ := h
  rw [hsupply.pagingInit_run.2 hindex] at hrun
  cases hrun

end Initialises

/-- Where the first five free frames can be used, `paging_init` does what it is for if and only if
the word of memory in the place of the pool's index is 0 and the three frames of the pool are
consecutive. -/
theorem paging_init_initialises_iff {s : PagingState} (hfive : s.SuppliesFive)
    (hpool : s.PoolInMemory) :
    PagingInitialises s ↔ s.PoolZero ∧ FramesConsecutive s poolPages := by
  have hpoolZero : PagingInitialises s → s.PoolZero := fun h => h.poolZero hfive hpool
  obtain ⟨l, rest, hlength, hsupply⟩ := hfive
  obtain ⟨i₁, i₂, i₃, i₄, i₅, rfl⟩ := five_entries hlength
  have hcompletes := fun hzero : s.PoolZero =>
    hsupply.pagingInit_run.1 ((hsupply.poolZero_iff hpool).mp hzero)
  constructor
  · intro h
    have hzero := hpoolZero h
    obtain ⟨s', hrun, hs⟩ := hcompletes hzero
    obtain ⟨s'', hrun', hinit⟩ := h
    obtain rfl := congrArg Prod.snd (Except.ok.inj (hrun.symm.trans hrun'))
    exact ⟨hzero, (hsupply.initialises_iff hs).mp hinit⟩
  · rintro ⟨hzero, hconsecutive⟩
    obtain ⟨s', hrun, hs⟩ := hcompletes hzero
    exact ⟨s', hrun, (hsupply.initialises_iff hs).mpr hconsecutive⟩

/-! ## The state after `setupAvailablePages` -/

/-- What `setupAvailablePages` leaves with `base_pd` in frame `f₀`, where that and the three frames
behind it are no boot tables. -/
structure Available (regions : List MemoryMapEntry) (f₀ : Nat) (s s' : PagingState) : Prop where
  paged : Paged s'.frames
  isTable : ∀ f, s'.frames.IsTable f ↔ BootTable f
  data : ∀ f, ¬ Cleared f₀ f → ¬ BootTable f → s'.frames f = s.frames f
  free : ∀ i, s'.Free i ↔ i ≠ 32 ∧ i < MAX_PHYS_PAGES ∧ ¬ ReservedEntry i ∧
    ∃ page, pageAt regions i = some page
  addr : ∀ i r x, s'.Free i → pageAt regions i = some (r, x) → s'.addr i = u32 (r.base + x * 4096)

theorem AtBoot.setup_available {s : PagingState} {f₀ : Nat} (h : AtBoot s)
    (regions : List MemoryMapEntry) (r : MemoryMapEntry) (x : Nat)
    (hpage : pageAt regions 32 = some (r, x)) (haddr : u32 (r.base + x * 4096) = f₀ * 4096)
    (hfits : BasePdFits f₀) (hclear : ∀ f, Cleared f₀ f → ¬ BootTable f) :
    ∃ s', setupAvailablePages regions s = .ok ((), s') ∧ Available regions f₀ s s' := by
  obtain ⟨m, hm⟩ := h.frames
  obtain ⟨u, s', hprepared, hrun, hframes, _, _, hentries⟩
    := h.setup_run regions r x hpage haddr hfits
  have hlt : f₀ < windowFrames := by
    have := hfits.1
    omega
  have hwindow : ∀ f < windowFrames, BootTable (windowTable f) := by
    intro f hf
    unfold windowFrames at hf
    unfold BootTable windowTable
    omega
  have hkept : ∀ f, BootTable f → s'.frames f = (u.basePdMapped 32 f₀).frames f :=
    fun f hf => hframes f fun hcleared => hclear f hcleared hf
  have hdirectory := hkept directoryFrame (.inl rfl)
  obtain ⟨_, hmapped⟩ : Change (fun _ => False) u.frames (u.basePdMapped 32 f₀).frames ∧ _ :=
    hprepared.paged.change_basePdMapped hlt
  have hfree : ∀ i, s'.Free i ↔ u.Free i ∧ i ≠ 32 := by
    intro i
    rw [← take_free]
    unfold PagingState.Free
    rw [hentries]
  refine ⟨s', hrun, ?_, ?_, ?_, ?_, ?_⟩
  · have hpaged : Paged (u.basePdMapped 32 f₀).frames := hprepared.paged.basePdMapped hlt
    refine hpaged.congr (fun slot => congrFun hdirectory slot) fun f hf => ?_
    rw [hkept _ (hwindow f hf)]
    exact hpaged.entries f hf
  · intro f
    rw [isTable_congr hdirectory, hmapped, hprepared.tables, hm, bootMemory_isTable]
  · intro f hcleared hf
    rw [hframes f hcleared, hprepared.paged.basePdMapped_other hlt, hprepared.data f]
    · rwa [hm, bootMemory_isTable]
    · rintro rfl
      exact hf (hwindow f₀ hlt)
  · intro i
    rw [hfree]
    constructor
    · rintro ⟨hi, hne⟩
      obtain ⟨hnot, r, x, hpage, _⟩ := hprepared.free i hi
      exact ⟨hne, hi.1, hnot, _, hpage⟩
    · rintro ⟨hne, hi, hnot, page, hpage⟩
      exact ⟨hprepared.free_of_page hi hnot hpage, hne⟩
  · intro i r x hi hpage
    obtain ⟨_, r', x', hpage', haddr'⟩ := hprepared.free i ((hfree i).mp hi).1
    obtain ⟨rfl, rfl⟩ := Prod.mk.inj (Option.some.inj (hpage'.symm.trans hpage))
    rw [PagingState.addr, hentries, ← PagingState.addr, take_addr, haddr']

/-- The free list starts with entry 33 where the next entries are free. -/
theorem freeEntries_of_free {s : PagingState} {n : Nat} (hn : 33 + n ≤ MAX_PHYS_PAGES)
    (hlow : ∀ i < 33, ¬ s.Free i) (hfree : ∀ k < n, s.Free (33 + k)) :
    ∃ rest, s.freeEntries = List.range' 33 n ++ rest := by
  have hrange : List.range MAX_PHYS_PAGES =
      List.range' 0 33 ++ List.range' 33 n ++ List.range' (33 + n) (MAX_PHYS_PAGES - (33 + n)) := by
    rw [List.range_eq_range', List.append_assoc, List.range'_append_1, ← Nat.zero_add 33,
      List.range'_append_1]
    congr 1
    omega
  have hfirst : (List.range' 0 33).filter
      (fun i => decide ((s.physicalPageEntries i).type = .free)) = [] := by
    rw [List.filter_eq_nil_iff]
    intro i hi hdecide
    have hlt : i < 33 := by
      have := (List.mem_range'_1.mp hi).2
      omega
    refine hlow i hlt ⟨?_, of_decide_eq_true hdecide⟩
    omega
  have hnext : (List.range' 33 n).filter
      (fun i => decide ((s.physicalPageEntries i).type = .free)) = List.range' 33 n := by
    rw [List.filter_eq_self]
    intro i hi
    obtain ⟨hle, hlt⟩ := List.mem_range'_1.mp hi
    have h := hfree (i - 33) (by omega)
    rw [Nat.add_sub_cancel' hle] at h
    exact decide_eq_true h.2
  rw [PagingState.freeEntries, hrange, List.filter_append, List.filter_append, hfirst, hnext,
    List.nil_append]
  exact ⟨_, rfl⟩

/-- `setupAvailablePages` supplies five frames where those of its entries 33 to 37 can be used,
whatever the rest of the map, also beyond the window. -/
theorem AtBoot.setup_suppliesFive {s : PagingState} {regions : List MemoryMapEntry}
    {frame : Nat → Nat} (h : AtBoot s)
    (hpages : ∀ k < 6, ∃ r x, pageAt regions (32 + k) = some (r, x) ∧
      r.base + x * 4096 = frame k * 4096 ∧ frame k < windowFrames ∧ ¬ BootTable (frame k))
    (hdistinct : ∀ k < 6, ∀ k' < 6, frame k = frame k' → k = k')
    (hbase : BasePdFits (frame 0)) (hclear : ∀ f, Cleared (frame 0) f → ¬ BootTable f) :
    ∃ s', setupAvailablePages regions s = .ok ((), s') ∧ s'.SuppliesFive := by
  have hu32 : ∀ k < 6, u32 (frame k * 4096) = frame k * 4096 := by
    intro k hk
    obtain ⟨-, -, -, -, hlt, -⟩ := hpages k hk
    unfold windowFrames at hlt
    exact u32_of_lt (by omega)
  obtain ⟨r, x, hpage, haddr, -⟩ := hpages 0 (by decide)
  have hfirst : u32 (r.base + x * 4096) = frame 0 * 4096 := by rw [haddr, hu32 0 (by decide)]
  obtain ⟨s', hrun, havailable⟩ := h.setup_available regions r x hpage hfirst hbase hclear
  have hfree : ∀ k < 5, s'.Free (33 + k) := by
    intro k hk
    obtain ⟨r, x, hpage, -⟩ := hpages (k + 1) (by omega)
    rw [show 32 + (k + 1) = 33 + k by omega] at hpage
    rw [havailable.free]
    unfold ReservedEntry MAX_PHYS_PAGES PGSIZE
    exact ⟨by omega, by omega, by omega, _, hpage⟩
  have hlow : ∀ i < 33, ¬ s'.Free i := by
    intro i hi hfreeEntry
    obtain ⟨hne, -, hnot, -⟩ := (havailable.free i).mp hfreeEntry
    unfold ReservedEntry at hnot
    omega
  have hframe : ∀ k < 5, s'.addr (33 + k) = frame (k + 1) * 4096 := by
    intro k hk
    obtain ⟨r, x, hpage, haddr, -⟩ := hpages (k + 1) (by omega)
    rw [show 32 + (k + 1) = 33 + k by omega] at hpage
    rw [havailable.addr _ r x (hfree k hk) hpage, haddr, hu32 _ (by omega)]
  obtain ⟨rest, hentries⟩ := freeEntries_of_free (by decide) hlow hfree
  refine ⟨s', hrun, List.range' 33 5, rest, List.length_range', ?_⟩
  have hentry : ∀ i ∈ List.range' 33 5, ∃ k < 5, i = 33 + k := by
    intro i hi
    obtain ⟨hle, hlt⟩ := List.mem_range'_1.mp hi
    exact ⟨i - 33, by omega, by omega⟩
  refine ⟨havailable.paged, hentries, fun i hi => ?_, fun i hi j hj heq => ?_⟩
  · obtain ⟨k, hk, rfl⟩ := hentry i hi
    obtain ⟨-, -, -, -, hlt, hnot⟩ := hpages (k + 1) (by omega)
    rw [hframe k hk]
    refine ⟨Nat.mul_mod_left _ _, ?_, ?_⟩
    · rwa [Nat.mul_div_cancel _ (by decide)]
    · rwa [Nat.mul_div_cancel _ (by decide), havailable.isTable]
  · obtain ⟨k, hk, rfl⟩ := hentry i hi
    obtain ⟨k', hk', rfl⟩ := hentry j hj
    rw [hframe k hk, hframe k' hk'] at heq
    have := hdistinct (k + 1) (by omega) (k' + 1) (by omega) (by omega)
    omega

theorem not_bootTable_plain {f : Nat} (h : Cleared 0x120 f) : ¬ BootTable f := by
  unfold Cleared at h
  unfold BootTable directoryFrame
  omega

/-- The free entries of a map that ends before the entry of the video memory. -/
theorem Available.freeEntries {regions : List MemoryMapEntry} {f₀ n : Nat} {s s' : PagingState}
    (h : Available regions f₀ s s')
    (hpages : ∀ i, 33 ≤ i → ((∃ page, pageAt regions i = some page) ↔ 33 ≤ i ∧ i < 33 + n))
    (hn : 33 + n ≤ 184) : s'.freeEntries = List.range' 33 n := by
  refine List.Pairwise.eq_of_mem_iff (List.pairwise_lt_range.filter _) List.pairwise_lt_range' ?_
  intro i
  rw [mem_freeEntries, h.free, List.mem_range'_1]
  unfold ReservedEntry MAX_PHYS_PAGES PGSIZE
  constructor
  · rintro ⟨hne, hi, hnot, hpage⟩
    exact (hpages i (by omega)).mp hpage
  · rintro ⟨hlow, hhigh⟩
    exact ⟨by omega, by omega, by omega, (hpages i hlow).mpr ⟨hlow, hhigh⟩⟩

/-! ## Memory with one word that is not blank -/

/-- The frame for `base_pd` is the last of one region, and those for the pool are the first ones
of another. -/
def splitMap : List MemoryMapEntry := [⟨0x100000, 0x21000⟩, ⟨0x200000, 0x8000⟩]

/-- The boot state with a word of memory in the place of the pool's index. -/
def leftover (word : Nat) : PagingState :=
  { blankBoot with
    frames := bootMemory fun f i => if f = 0x200 ∧ i = 1 then word else 0
    pools := fun _ => ⟨0, int32 word, fun _ => ⟨.unset, 0, .null, .null⟩⟩ }

section Leftover

variable {word : Nat}

theorem usableMap_split : UsableMap splitMap := ⟨by decide, by decide, by decide⟩

theorem pageAt_split {n x : Nat} {r : MemoryMapEntry} (hn : 32 ≤ n)
    (h : pageAt splitMap n = some (r, x)) :
    n = 32 ∧ r.base = 0x100000 ∧ x = 32 ∨ 33 ≤ n ∧ n < 41 ∧ r.base = 0x200000 ∧ x = n - 33 := by
  have hfirst : (⟨0x100000, 0x21000⟩ : MemoryMapEntry).maxPages.toNat = 33 := by decide
  have hsecond : (⟨0x200000, 0x8000⟩ : MemoryMapEntry).maxPages.toNat = 8 := by decide
  rw [splitMap, pageAt, hfirst, pageAt, hsecond, pageAt] at h
  split at h
  · cases h
    exact .inl ⟨by omega, rfl, by omega⟩
  · split at h
    · cases h
      exact .inr ⟨by omega, by omega, rfl, rfl⟩
    · cases h

theorem tablesFit_split : TablesFit splitMap := by
  intro n _ hnot r x hpage
  have hge : 32 ≤ n := by
    by_contra hlt
    exact hnot (.inl (by omega))
  have hcases := pageAt_split hge hpage
  unfold BootTable directoryFrame windowFrames
  refine ⟨by omega, by omega, by omega, ?_⟩
  intro hfirst k hk
  omega

theorem atBoot_leftover : AtBoot (leftover word) where
  frames := ⟨fun f i => if f = 0x200 ∧ i = 1 then word else 0, by simp only [leftover]⟩
  entries := by simp only [leftover, blankBoot]
  returned := by simp only [leftover, blankBoot]
  installed := by simp only [leftover, blankBoot]

/-- `setupAvailablePages` does not know of the pools. -/
theorem setupAvailablePages_pools {s s' : PagingState} {regions : List MemoryMapEntry}
    (hrun : setupAvailablePages regions s = .ok ((), s')) : s'.pools = s.pools := by
  have hstable := stable_pools fun pools _ => pools = s.pools
  have hassign : ∀ f : PagingState → PagingState, (∀ u, (f u).pools = u.pools) →
      Keeps (fun u => u.pools = s.pools) (assign f) := by
    intro f hf u hu a u' hrun
    cases hrun
    exact (hf u).trans hu
  have hreserve : ∀ i, Keeps (fun u => u.pools = s.pools) (reservePage i) := by
    intro i
    refine Keeps.bind (hassign _ ?_) fun _ => hstable.mapPage _ _ _
    exact fun _ => rfl
  have hloop : ∀ n i, Keeps (fun u => u.pools = s.pools) (reserveLoop i n) := by
    intro n
    induction n with
    | zero => exact fun _ => Keeps.pure
    | succ n ih => exact fun i => (hreserve i).bind fun _ => ih _
  have hbasePd : Keeps (fun u => u.pools = s.pools) setupBasePd := by
    refine (hstable.pallocKern _ _).bind fun basePd => ?_
    refine Keeps.bind (hassign _ ?_) fun _ => hstable.memcpy _ _ _
    exact fun _ => rfl
  have hsetup : Keeps (fun u => u.pools = s.pools) (setupAvailablePages regions) := by
    refine Keeps.bind (hassign _ ?_) fun _ => (hloop _ _).bind fun _ => (hreserve _).bind
      fun _ => hbasePd
    exact fun _ => rfl
  exact hsetup s rfl () s' hrun

/-- After `setupAvailablePages` eight frames are free, and the word is where it was. -/
theorem setup_leftover : ∃ s', setupAvailablePages splitMap (leftover word) = .ok ((), s') ∧
    s'.freeEntries = List.range' 33 8 ∧ (∀ k < 8, s'.addr (33 + k) = (0x200 + k) * 4096) ∧
    s'.frames 0x200 1 = word ∧ s'.pools = (leftover word).pools := by
  obtain ⟨s', hrun, havailable⟩ := atBoot_leftover.setup_available splitMap ⟨0x100000, 0x21000⟩ 32
    (by decide) (by decide) basePdFits_plain fun _ => not_bootTable_plain
  have hall : ∀ i, 33 ≤ i → i < 41 → pageAt splitMap i = some (⟨0x200000, 0x8000⟩, i - 33) := by
    intro i hlow hhigh
    have hfirst : (⟨0x100000, 0x21000⟩ : MemoryMapEntry).maxPages.toNat = 33 := by decide
    have hsecond : (⟨0x200000, 0x8000⟩ : MemoryMapEntry).maxPages.toNat = 8 := by decide
    rw [splitMap, pageAt, hfirst, if_neg (by omega), pageAt, hsecond, if_pos (by omega)]
  have hfree : s'.freeEntries = List.range' 33 8 := by
    refine havailable.freeEntries (fun i hi => ?_) (by decide)
    constructor
    · rintro ⟨⟨r, x⟩, hpage⟩
      have := pageAt_split (by omega) hpage
      omega
    · rintro ⟨hlow, hhigh⟩
      exact ⟨_, hall i hlow hhigh⟩
  refine ⟨s', hrun, hfree, ?_, ?_, setupAvailablePages_pools hrun⟩
  · intro k hk
    have hmem : s'.Free (33 + k) := by
      rw [← mem_freeEntries, hfree, List.mem_range'_1]
      omega
    rw [havailable.addr _ _ _ hmem (hall _ (by omega) (by omega))]
    dsimp only
    unfold u32
    omega
  · have hnot : ¬ Cleared 0x120 0x200 := by
      unfold Cleared
      omega
    rw [havailable.data 0x200 hnot (by decide)]
    simp only [leftover]
    rw [bootMemory_apply _ _ _ (by decide)]
    rfl

/-- The first three of these frames lie one behind the other. -/
theorem framesConsecutive_range {s : PagingState} (hentries : s.freeEntries = List.range' 33 8)
    (haddr : ∀ k < 8, s.addr (33 + k) = (0x200 + k) * 4096) : FramesConsecutive s poolPages := by
  intro j hj k hk
  have hpages : poolPages = 3 := by decide
  rw [hpages] at hk
  rw [firstFree_eq_head, hentries] at hj
  obtain rfl : 33 = j := Option.some.inj hj
  refine ⟨33 + k, ?_, ?_⟩
  · rw [hentries, hpages, List.take_range'_of_length_ge (by decide), List.mem_range'_1]
    omega
  · have hfirst : s.addr 33 = (0x200 + 0) * 4096 := haddr 0 (by decide)
    rw [haddr k (by omega)]
    omega

/-- The state in which `paging_init` is called. -/
theorem leftover_available (word : Nat) : ∃ k : PagingRun,
    pagingMachine.Reach (fun k c => c.Apart k) k ∧ k.stage = .available ∧
    5 ≤ k.state.freeEntries.length ∧ k.state.PoolInMemory ∧
    FramesConsecutive k.state poolPages ∧ (k.state.PoolZero ↔ word % 4294967296 = 0) := by
  obtain ⟨s, hrun, hentries, haddr, hword, hpools⟩ := @setup_leftover word
  have hreach : pagingMachine.Reach (fun k c => c.Apart k) ⟨s, .available, splitMap⟩ :=
    atBoot_leftover.reach_setup usableMap_split tablesFit_split hrun
  have hfirst : firstFree s.physicalPageEntries = some 33 := by
    rw [firstFree_eq_head, hentries]
    rfl
  have hframe : s.addr 33 / 4096 = 0x200 := by
    have hfirst' : s.addr 33 = (0x200 + 0) * 4096 := haddr 0 (by decide)
    omega
  refine ⟨⟨s, .available, splitMap⟩, hreach, rfl, ?_, ?_, ?_, ?_⟩
  · rw [hentries]
    decide
  · intro j hj
    obtain rfl := Option.some.inj (hj.symm.trans hfirst)
    rw [hframe, hword, PagingState.index, hpools]
    simp only [leftover]
  · exact framesConsecutive_range hentries haddr
  · constructor
    · intro hzero
      have := hzero 33 hfirst
      rwa [hframe, hword] at this
    · intro hzero j hj
      obtain rfl := Option.some.inj (hj.symm.trans hfirst)
      rw [hframe, hword]
      exact hzero

end Leftover

/-- Blank memory. -/
theorem paging_init_initialises_blank : ∃ k : PagingRun, pagingMachine.Reachable k ∧
    k.stage = .available ∧ PagingInitialises k.state := by
  obtain ⟨k, run, hstage, hframes, hpool, hconsecutive, hzero⟩ := leftover_available 0
  refine ⟨k, run.mono fun _ _ _ => trivial, hstage, ?_⟩
  exact (paging_init_initialises_iff (suppliesFive_of_reach run hstage hframes) hpool).mpr
    ⟨hzero.mpr (by decide), hconsecutive⟩

/-- Memory that has held something else. -/
theorem paging_init_depends_on_memory : ¬ ∀ k : PagingRun, pagingMachine.Reachable k →
    k.stage = .available → 5 ≤ k.state.freeEntries.length → k.state.PoolInMemory →
      PagingInitialises k.state := by
  intro h
  obtain ⟨k, run, hstage, hframes, hpool, _, hzero⟩ := leftover_available 1
  have hinit := h k (run.mono fun _ _ _ => trivial) hstage hframes hpool
  have hpoolZero := hinit.poolZero (suppliesFive_of_reach run hstage hframes) hpool
  exact absurd (hzero.mp hpoolZero) (by decide)

end NickOS3.Paging
