import NickOS3.Paging.PoolTable
import NickOS3.Paging.Uncleared

/-!
# The pages `palloc_heap` returns

The heap pages are those below the index of the kernel's pool. In runs whose free entries name
usable frames and whose index stays within `virtual_pages`, every one of them has a frame of its
own, and no two calls return the same page.
-/

namespace NickOS3.Paging

open Foundation Program

/-- A heap page: page 0, or one that a round of `palloc_heap` has mapped since. -/
def PagingState.HeapPage (s : PagingState) (page : Nat) : Prop :=
  (page : Int) < s.index s.kernelPool

/-- A page is mapped to a frame that no other heap page is mapped to and that is no page table. -/
def PagingState.OwnFrame (s : PagingState) (page : Nat) : Prop :=
  ∃ frame, frameOf s.frames page = some frame ∧ ¬ s.frames.IsTable frame ∧
    ∀ page', s.HeapPage page' → page' ≠ page → frameOf s.frames page' ≠ some frame

/-- What a call returned, and the number of pages it was asked for. -/
structure Given where
  addr : Nat
  numPages : Int

/-- The consecutive pages from the returned address on. -/
def Given.Pages (g : Given) (page : Nat) : Prop :=
  pageOf g.addr ≤ page ∧ (page : Int) < pageOf g.addr + g.numPages

/-- The kernel, and the calls of `palloc_heap` that did not fail, the last one first. -/
structure HeapRun where
  state : PagingState
  given : List Given

/-- Every call returned pages that were no heap pages before, and each has a frame of its own. -/
structure GivenSound (h : HeapRun) : Prop where
  aligned : ∀ g ∈ h.given, g.addr % 4096 = 0
  first : ∀ g ∈ h.given, ¬ g.Pages 0
  apart : h.given.Pairwise fun g g' => ∀ page, g.Pages page → ¬ g'.Pages page
  own : ∀ g ∈ h.given, ∀ page, g.Pages page → h.state.HeapPage page ∧ h.state.OwnFrame page

/-- `palloc_heap` is called with the kernel's pool once `init_heap_page` has returned. -/
def heapMachine (allowed : PagingRun → Call → Prop) : Machine HeapRun HeapRequest where
  start h := h.given = [] ∧ ∃ k, pagingMachine.Reach allowed k ∧ k.stage = .pooled ∧
    initKernelHeap k.state = .ok ((), h.state)
  step h a h' := a.memPool = h.state.kernelPool ∧ ∃ r,
    pallocHeap a.numPages a.memPool a.flags h.state = .ok (r, h'.state) ∧
      h'.given = if r = NO_ADDR then h.given else ⟨r, a.numPages⟩ :: h.given

/-- Up to `init_heap_page` no call clears or maps over a page table, and the pool lies in frames of
its own. -/
def Call.KeepsPool (k : PagingRun) (c : Call) : Prop :=
  c.Apart k ∧ (c = .initKernelPool → FramesConsecutive k.state poolPages)

/-- The rounds of a call, with the one that finds no frame, stay within `virtual_pages`, and the
call clears nothing. -/
def HeapRequest.Fits (a : HeapRequest) (s : PagingState) : Prop :=
  (0 < a.numPages →
    s.index s.kernelPool + min a.numPages (s.freeEntries.length + 1) ≤ 512) ∧
  (fZero a.flags = true → a.numPages = 0 ∨ (s.freeEntries.length : Int) < a.numPages)

/-! ## The pages that are owned -/

/-- Where no entry becomes free there are no more free ones. -/
theorem length_freeEntries_mono {s s' : PagingState} (h : ∀ i, s'.Free i → s.Free i) :
    s'.freeEntries.length ≤ s.freeEntries.length := by
  refine (List.subperm_of_subset (freeEntries_nodup s') ?_).length_le
  intro i hi
  exact mem_freeEntries.mpr (h i (mem_freeEntries.mp hi))

/-- The pages below a bound have usable frames of their own. -/
structure OwnsPages (s : PagingState) (n : Nat) : Prop where
  sound : Sound s
  own : ∀ page < n, ∃ f, frameOf s.frames page = some f ∧ s.Taken (f * 4096)
  distinct : ∀ page < n, ∀ page' < n, frameOf s.frames page = frameOf s.frames page' → page = page'

section OwnsPages

variable {s s' : PagingState} {n : Nat}

theorem OwnsPages.congr (h : OwnsPages s n) (hframes : s'.frames = s.frames)
    (hentries : s'.physicalPageEntries = s.physicalPageEntries) : OwnsPages s' n := by
  have hkept : Kept (fun _ => False) s s' := h.sound.kept hframes hentries
  refine ⟨hkept.sound, ?_, ?_⟩
  · intro page hpage
    obtain ⟨f, hf, htaken⟩ := h.own page hpage
    exact ⟨f, hframes ▸ hf, htaken.congr hentries hkept.tables⟩
  · rw [hframes]
    exact h.distinct

/-- `map_page` of the next page, to the first free frame. -/
theorem OwnsPages.mapPage {j v flags : Nat} (h : OwnsPages s n) (hn : n < kernelPage)
    (hv : v % 4096 = 0 ∧ pageOf v = n) (hj : s.Free j)
    (hmap : Paging.mapPage (s.addr j) v flags (s.take j) = .ok ((), s')) :
    OwnsPages s' (n + 1) := by
  obtain ⟨htake, hnew⟩ := h.sound.take hj
  obtain ⟨hsound, hchanges, htaken, hframe⟩ : Sound s' ∧
      Changes (· = n) (s.take j).frames s'.frames ∧ _ :=
    htake.mapPage_heap hv.1 (hv.2 ▸ hn) hnew.1.1 hv.2 hmap
  have hlt := hnew.1.2.1
  unfold windowFrames at hlt
  rw [hv.2, Nat.mod_eq_of_lt (by omega)] at hframe
  have hmul : s.addr j / 4096 * 4096 = s.addr j :=
    Nat.div_mul_cancel (Nat.dvd_of_mod_eq_zero hnew.1.1)
  have hold : ∀ page < n, ∃ f, frameOf s.frames page = some f ∧ frameOf s'.frames page = some f ∧
      s'.Taken (f * 4096) ∧ f ≠ s.addr j / 4096 := by
    intro page hpage
    obtain ⟨f, hf, hfTaken⟩ := h.own page hpage
    refine ⟨f, hf, hchanges.frameOf htake.paged (by omega) (by omega) hf, ?_, ?_⟩
    · apply htaken
      refine ⟨hfTaken.1, fun i hi => ?_⟩
      rw [take_addr]
      exact hfTaken.2 i ((take_free i).mp hi).1
    · rintro rfl
      exact hfTaken.2 j hj hmul.symm
  refine ⟨hsound, ?_, ?_⟩
  · intro page hpage
    by_cases heq : page = n
    · subst heq
      refine ⟨_, hframe, ?_⟩
      rw [hmul]
      exact htaken _ hnew
    · obtain ⟨f, _, hf, hfTaken, _⟩ := hold page (by omega)
      exact ⟨f, hf, hfTaken⟩
  · intro page hpage page' hpage' heq
    by_cases hlast : page = n
    · by_cases hlast' : page' = n
      · exact hlast.trans hlast'.symm
      · obtain ⟨f, _, hf, _, hne⟩ := hold page' (by omega)
        rw [hlast, hframe, hf] at heq
        exact absurd (Option.some.inj heq).symm hne
    · obtain ⟨f, hf, hf', _, hne⟩ := hold page (by omega)
      by_cases hlast' : page' = n
      · rw [hlast', hframe, hf'] at heq
        exact absurd (Option.some.inj heq) hne
      · obtain ⟨f', hg, hg', _, _⟩ := hold page' (by omega)
        apply h.distinct page (by omega) page' (by omega)
        rw [hf, hg, ← hf', ← hg', heq]

/-- The loop of `palloc_heap` on the kernel's pool. It owns one page more for each of its rounds,
and has gone through all of them when it returns an address. -/
theorem OwnsPages.pallocHeapLoop {k i r flags : Nat} {res : Option Nat} (h : OwnsPages s n)
    (hindex : s.index s.kernelPool = n)
    (hlimit : (n : Int) + min (k : Int) (s.freeEntries.length + 1) ≤ 512)
    (hrun : Paging.pallocHeapLoop s.kernelPool flags k i r s = .ok (res, s')) :
    ∃ n', OwnsPages s' n' ∧ s'.index s'.kernelPool = n' ∧ s'.kernelPool = s.kernelPool ∧ n ≤ n' ∧
      ∀ x, res = some x → k ≤ s.freeEntries.length ∧ n' = n + k ∧
        x = if i = 0 ∧ 0 < k then n * 4096 else r := by
  induction k generalizing i r s n with
  | zero =>
      cases hrun
      refine ⟨n, h, hindex, rfl, Nat.le_refl n, ?_⟩
      intro x hx
      rw [if_neg (by omega)]
      exact ⟨Nat.zero_le _, rfl, (Option.some.inj hx).symm⟩
  | succ k ih =>
      rw [Paging.pallocHeapLoop, bind_run_of_ok copyVirtPage_run] at hrun
      have hcopied : OwnsPages (s.access s.kernelPool (s.index s.kernelPool)) n := h.congr rfl rfl
      generalize hu : s.access s.kernelPool (s.index s.kernelPool) = u at hrun hcopied
      have hpools : u.pools = s.pools ∧ u.kernelPool = s.kernelPool := hu ▸ ⟨rfl, rfl⟩
      have hindex' : u.index s.kernelPool = n := by
        rw [PagingState.index, hpools.1]
        exact hindex
      have hfree : u.freeEntries = s.freeEntries := hu ▸ rfl
      cases hfirst : firstFree u.physicalPageEntries with
      | none =>
          rw [bind_run_of_ok (getNextFreePhysicalPage_none hfirst), if_pos rfl] at hrun
          obtain ⟨rfl, rfl⟩ := noFrame_eq_ok hrun
          refine ⟨n, hcopied, ?_, hpools.2, Nat.le_refl n, ?_⟩
          · rw [hpools.2]
            exact hindex'
          · intro x hx
            cases hx
      | some j =>
          have hj := firstFree_eq_some hfirst
          have hlength : s.freeEntries.length = (u.take j).freeEntries.length + 1 := by
            rw [← hfree, freeEntries_take hfirst, List.length_cons]
          have hn : n < 512 := by omega
          have hnext : nextVaddr s.kernelPool (u.take j) = .ok (n * 4096, u.take j) := by
            rw [nextVaddr_run, show (u.take j).index s.kernelPool = n from hindex']
            have hvaddr : ofInt ((n : Int) * 4096) = n * 4096 := by
              unfold ofInt
              omega
            rw [hvaddr]
          have hget : getNextFreePhysicalPage u = .ok (u.addr j, u.take j) :=
            getNextFreePhysicalPage_run hfirst
          rw [bind_run_of_ok hget, if_neg (hcopied.sound.usable j hj).ne_noAddr,
            bind_run_of_ok hnext] at hrun
          obtain ⟨_, w, hmap, hrest⟩ := bind_eq_ok hrun
          rw [bind_run_of_ok (assign_run _)] at hrest
          have howns : OwnsPages w (n + 1) := by
            refine hcopied.mapPage (by unfold kernelPage; omega) ?_ hj hmap
            exact ⟨Nat.mul_mod_left _ _, Nat.mul_div_cancel _ (by decide)⟩
          have hw : w.pools = s.pools ∧ w.kernelPool = s.kernelPool :=
            (stable_pools fun pools P => pools = s.pools ∧ P = s.kernelPool).mapPage _ _ _
              (u.take j) hpools () w hmap
          have hlength' : w.freeEntries.length ≤ (u.take j).freeEntries.length :=
            length_freeEntries_mono fun i hi => ((frameStable_free (u.take j)).mapPage _ _ _
              (u.take j) (fun _ hx => ⟨hx, rfl⟩) () w hmap i hi).1
          have hlinked : OwnsPages (w.linkVirtPage s.kernelPool) (n + 1) := howns.congr rfl rfl
          have hkernel' : (w.linkVirtPage s.kernelPool).kernelPool = s.kernelPool := hw.2
          have hfree' : (w.linkVirtPage s.kernelPool).freeEntries = w.freeEntries := rfl
          have hone : (w.linkVirtPage s.kernelPool).index s.kernelPool = (n + 1 : Nat) := by
            rw [index_linkVirtPage, if_pos hw.2.symm, PagingState.index, hw.1, ← PagingState.index,
              hindex]
            omega
          generalize w.linkVirtPage s.kernelPool = v at hrest hlinked hkernel' hfree' hone
          rw [← hkernel'] at hone hrest
          obtain ⟨n', howns', hindex'', hsame, hle, hres⟩ := ih hlinked hone (by
            rw [hfree']
            omega) hrest
          refine ⟨n', howns', hindex'', hsame.trans hkernel', by omega, ?_⟩
          intro x hx
          obtain ⟨hk, hn', hx'⟩ := hres x hx
          rw [hfree'] at hk
          refine ⟨by omega, by omega, ?_⟩
          rw [hx', if_neg (by omega)]
          by_cases hi : i = 0
          · rw [if_pos hi, if_pos (by omega)]
          · rw [if_neg hi, if_neg (by omega)]

/-- `palloc_heap` on the kernel's pool, within `virtual_pages`. -/
theorem OwnsPages.pallocHeap {a : HeapRequest} {r : Nat} (h : OwnsPages s n)
    (hindex : s.index s.kernelPool = n) (hfits : a.Fits s)
    (hrun : Paging.pallocHeap a.numPages s.kernelPool a.flags s = .ok (r, s')) :
    ∃ n', OwnsPages s' n' ∧ s'.index s'.kernelPool = n' ∧ n ≤ n' ∧
      (r ≠ NO_ADDR → r % 4096 = 0 ∧ (0 < a.numPages → pageOf r = n ∧ n' = n + a.numPages)) := by
  obtain ⟨hlimit, hzero⟩ := hfits
  obtain ⟨res, mid, hloop, hrest⟩ := bind_eq_ok hrun
  have hlimit' : (n : Int) + min (a.numPages.toNat : Int) (s.freeEntries.length + 1) ≤ 512 ∨
      a.numPages.toNat = 0 := by
    by_cases hpos : 0 < a.numPages
    · have := hlimit hpos
      omega
    · omega
  obtain ⟨n', howns, hindex', hle, hres⟩ : ∃ n', OwnsPages mid n' ∧
      mid.index mid.kernelPool = n' ∧ n ≤ n' ∧ ∀ x, res = some x →
        a.numPages.toNat ≤ s.freeEntries.length ∧ n' = n + a.numPages.toNat ∧
          x = if 0 < a.numPages then n * 4096 else 0 := by
    rcases hlimit' with hlimit' | hnone
    · obtain ⟨n', howns, hindex', _, hle, hres⟩ := h.pallocHeapLoop hindex hlimit' hloop
      refine ⟨n', howns, hindex', hle, fun x hx => ?_⟩
      obtain ⟨hk, hn', hx'⟩ := hres x hx
      refine ⟨hk, hn', hx'.trans ?_⟩
      by_cases hpos : 0 < a.numPages
      · rw [if_pos hpos, if_pos ⟨rfl, by omega⟩]
      · rw [if_neg hpos, if_neg (by omega)]
    · rw [hnone] at hloop ⊢
      cases hloop
      refine ⟨n, h, hindex, Nat.le_refl n, fun x hx => ⟨Nat.zero_le _, rfl, ?_⟩⟩
      rw [if_neg (by omega)]
      exact (Option.some.inj hx).symm
  cases res with
  | none =>
      cases hrest
      exact ⟨n', howns, hindex', hle, fun hne => absurd rfl hne⟩
  | some x =>
      obtain ⟨hk, hn', hx⟩ := hres x rfl
      obtain ⟨_, last, hclear, hpure⟩ := bind_eq_ok hrest
      cases hpure
      have hlast : s' = mid := by
        unfold zeroPages at hclear
        split at hclear
        · rename_i hflag
          rcases hzero hflag with hnone | hmore
          · rw [hnone] at hclear
            cases hclear
            rfl
          · omega
        · cases hclear
          rfl
      rw [hlast]
      refine ⟨n', howns, hindex', hle, fun _ => ?_⟩
      by_cases hpos : 0 < a.numPages
      · rw [if_pos hpos] at hx
        rw [hx]
        refine ⟨Nat.mul_mod_left _ _, fun _ => ⟨Nat.mul_div_cancel _ (by decide), by omega⟩⟩
      · rw [if_neg hpos] at hx
        rw [hx]
        exact ⟨rfl, fun hpos' => absurd hpos' hpos⟩

/-- `init_heap_page` sets the index of the pool to 1. -/
theorem initHeapPage_index {pl flags : Nat} (hrun : initHeapPage pl flags s = .ok ((), s')) :
    s'.index pl = 1 ∧ s'.kernelPool = s.kernelPool := by
  obtain ⟨_, s₁, hcheck, hrun₁⟩ := bind_eq_ok hrun
  obtain ⟨p, s₂, hnext, hrun₂⟩ := bind_eq_ok hrun₁
  obtain ⟨_, s₃, hone, hrun₃⟩ := bind_eq_ok hrun₂
  obtain ⟨_, s₄, htype, hrun₄⟩ := bind_eq_ok hrun₃
  obtain ⟨_, s₅, hmap, hrun₅⟩ := bind_eq_ok hrun₄
  obtain ⟨_, s₆, hlinks, hrun₆⟩ := bind_eq_ok hrun₅
  obtain ⟨_, s₇, hring, hheap⟩ := bind_eq_ok hrun₆
  have hstable := stable_pools fun pools P => (pools pl).nextFreePageIndex = 1 ∧ P = s.kernelPool
  have hkernel : s₂.kernelPool = s.kernelPool := by
    have hs₁ : s₁ = s := by
      unfold checkFresh at hcheck
      split at hcheck
      · cases hcheck
      · exact (congrArg Prod.snd (Except.ok.inj hcheck)).symm
    exact (stable_pools fun _ P => P = s.kernelPool).getNextFree s₁ (hs₁ ▸ rfl) p s₂ hnext
  have h₄ : (s₄.pools pl).nextFreePageIndex = 1 ∧ s₄.kernelPool = s.kernelPool := by
    cases hone
    cases htype
    refine ⟨?_, hkernel⟩
    simp [PagingState.setPool, PagingState.access, Pool.setEntry]
  have h₅ := hstable.mapPage _ _ _ s₄ h₄ () s₅ hmap
  have h₇ : (s₇.pools pl).nextFreePageIndex = 1 ∧ s₇.kernelPool = s.kernelPool := by
    cases hlinks
    cases hring
    refine ⟨?_, h₅.2⟩
    simpa [PagingState.setPool, PagingState.access, Pool.setEntry] using h₅.1
  exact hstable.initialiseHeap _ _ s₇ h₇ () s' hheap

end OwnsPages

/-! ## Runs -/

/-- What holds between the calls: the heap pages are owned, and those the calls returned lie behind
page 0. -/
structure HeapRun.Owns (h : HeapRun) (n : Nat) : Prop where
  pages : OwnsPages h.state n
  index : h.state.index h.state.kernelPool = n
  pos : 1 ≤ n
  aligned : ∀ g ∈ h.given, g.addr % 4096 = 0
  below : ∀ g ∈ h.given, ∀ page, g.Pages page → 1 ≤ page ∧ page < n
  apart : h.given.Pairwise fun g g' => ∀ page, g.Pages page → ¬ g'.Pages page

section Runs

variable {h h' : HeapRun} {a : HeapRequest} {n : Nat} {allowed : PagingRun → Call → Prop}

theorem owns_start (hallowed : ∀ k c, allowed k c → c.Apart k)
    (hstart : (heapMachine allowed).start h) : h.Owns 1 := by
  obtain ⟨hgiven, k, hreach, hstage, hrun⟩ := hstart
  have hsound : Sound k.state := by
    rcases reach_sound (hreach.mono hallowed) with ⟨hbooted, _⟩ | ⟨_, hsound⟩
    · rw [hstage] at hbooted
      cases hbooted
    · exact hsound
  obtain ⟨hgrown, f, hframe, htaken⟩ := hsound.initHeapPage_page hrun
  obtain ⟨hindex, hkernel⟩ := initHeapPage_index hrun
  have hnone : ∀ g, g ∉ h.given := fun g hg => List.not_mem_nil (hgiven ▸ hg)
  constructor
  · refine ⟨hgrown.sound, ?_, ?_⟩
    · intro page hpage
      obtain rfl : page = 0 := by omega
      exact ⟨f, hframe, htaken⟩
    · intro page hpage page' hpage' _
      omega
  · rw [hkernel]
    exact hindex
  · exact Nat.le_refl 1
  · exact fun g hg => absurd hg (hnone g)
  · exact fun g hg => absurd hg (hnone g)
  · rw [hgiven]
    exact .nil

theorem HeapRun.Owns.step (howns : h.Owns n) (hfits : a.Fits h.state)
    (hstep : (heapMachine allowed).step h a h') : ∃ n', h'.Owns n' := by
  obtain ⟨hpool, r, hrun, hgiven⟩ := hstep
  rw [hpool] at hrun
  obtain ⟨n', hpages, hindex, hle, hreturned⟩ := howns.pages.pallocHeap howns.index hfits hrun
  have hbelow : ∀ g ∈ h.given, ∀ page, g.Pages page → 1 ≤ page ∧ page < n' := by
    intro g hg page hpage
    obtain ⟨hlow, hhigh⟩ := howns.below g hg page hpage
    exact ⟨hlow, by omega⟩
  have hpos := howns.pos
  by_cases hr : r = NO_ADDR
  · rw [if_pos hr] at hgiven
    refine ⟨n', hpages, hindex, by omega, ?_, ?_, ?_⟩
    · rw [hgiven]
      exact howns.aligned
    · rw [hgiven]
      exact hbelow
    · rw [hgiven]
      exact howns.apart
  · rw [if_neg hr] at hgiven
    obtain ⟨haligned, hbase⟩ := hreturned hr
    have hnew : ∀ page, Given.Pages ⟨r, a.numPages⟩ page → n ≤ page ∧ page < n' := by
      rintro page ⟨hlow, hhigh⟩
      dsimp only at hlow hhigh
      obtain ⟨hfirst, hlast⟩ := hbase (by omega)
      omega
    refine ⟨n', hpages, hindex, by omega, ?_, ?_, ?_⟩
    · rw [hgiven]
      exact List.forall_mem_cons.mpr ⟨haligned, howns.aligned⟩
    · rw [hgiven]
      refine List.forall_mem_cons.mpr ⟨fun page hpage => ?_, hbelow⟩
      obtain ⟨hlow, hhigh⟩ := hnew page hpage
      exact ⟨by omega, hhigh⟩
    · rw [hgiven]
      refine List.pairwise_cons.mpr ⟨?_, howns.apart⟩
      intro g hg page hpage hpage'
      have hlow := (hnew page hpage).1
      have hhigh := (howns.below g hg page hpage').2
      omega

theorem HeapRun.Owns.given (howns : h.Owns n) : GivenSound h := by
  have hheap : ∀ page, h.state.HeapPage page ↔ page < n := by
    intro page
    unfold PagingState.HeapPage
    rw [howns.index]
    omega
  constructor
  · exact howns.aligned
  · intro g hg hpage
    exact absurd (howns.below g hg 0 hpage).1 (by decide)
  · exact howns.apart
  · intro g hg page hpage
    have hlt := (howns.below g hg page hpage).2
    obtain ⟨f, hframe, htaken⟩ := howns.pages.own page hlt
    refine ⟨(hheap page).mpr hlt, f, hframe, ?_, ?_⟩
    · have hfresh := htaken.1.2.2
      rwa [Nat.mul_div_cancel _ (by decide)] at hfresh
    · intro page' hpage' hne hsame
      exact hne (howns.pages.distinct page' ((hheap page').mp hpage') page hlt
        (hsame.trans hframe.symm))

/-- Where the boot calls keep apart from the page tables and give the pool frames of its own, and
every call of `palloc_heap` stays within `virtual_pages` and clears nothing, each call that does
not fail has returned pages no call has returned before, each with a frame of its own. -/
theorem palloc_heap_pages_fresh
    (run : (heapMachine fun k c => c.KeepsPool k).Reach (fun h a => a.Fits h.state) h) :
    GivenSound h := by
  obtain ⟨n, howns⟩ : ∃ n, h.Owns n := by
    apply run.invariant
    · exact fun h hstart => ⟨1, owns_start (fun _ _ hallowed => hallowed.1) hstart⟩
    · exact fun h a h' ⟨n, howns⟩ hfits hstep => howns.step hfits hstep
  exact howns.given

end Runs

/-! ## The first call -/

section FirstCall

variable {s s' : PagingState} {l rest : List Nat} {allowed : PagingRun → Call → Prop}
  {regions : List MemoryMapEntry}

/-- The first free entries have been allocated. -/
theorem freeEntries_drawn (h : s.freeEntries = l ++ rest)
    (hentries : ∀ i, s'.physicalPageEntries i = if i ∈ l then
      { s.physicalPageEntries i with type := .allocated } else s.physicalPageEntries i) :
    s'.freeEntries = rest := by
  have hnodup := freeEntries_nodup s
  rw [h] at hnodup
  have hfilter : s'.freeEntries = s.freeEntries.filter fun i => i ∉ l := by
    unfold PagingState.freeEntries
    rw [List.filter_filter]
    refine List.filter_congr fun i _ => ?_
    rw [hentries]
    by_cases hi : i ∈ l
    · simp [hi]
    · simp [hi]
  rw [hfilter, h, List.filter_append, List.filter_eq_nil_iff.mpr (by simp), List.nil_append,
    List.filter_eq_self]
  intro i hi
  have hnot : i ∉ l := fun hmem => List.disjoint_of_nodup_append hnodup hmem hi
  simpa using hnot

/-- The state in which `palloc_heap` is called first. -/
structure Ready (s s' : PagingState) (rest : List Nat) : Prop where
  paged : Paged s'.frames
  hasTable : s'.frames.HasTable 0
  index : s'.index s'.kernelPool = 1
  freeEntries : s'.freeEntries = rest
  addr : ∀ i, s'.addr i = s.addr i

theorem Supply.ready {i₁ i₂ i₃ i₄ i₅ : Nat} (h : Supply s [i₁, i₂, i₃, i₄, i₅] rest)
    (hzero : s.index (kptov (s.addr i₁)) = 0) :
    ∃ s', Paging.pagingInit s = .ok ((), s') ∧ Ready s s' rest := by
  obtain ⟨t, hinit, hsupply, hkernel, hpools, habsent, _, hentries⟩ := h.pagingInit
  have hindex : t.index (kptov (s.addr i₁)) = 0 := by
    rw [PagingState.index, hpools]
    exact hzero
  obtain ⟨s', hrun, hstarts⟩ := hsupply.initHeapPage habsent hindex F_KERN
  have hdrawn : t.freeEntries = [i₄, i₅] ++ rest :=
    freeEntries_drawn (l := [i₁, i₂, i₃]) h.entries hentries
  refine ⟨s', hinit.trans hrun, hstarts.paged, (hstarts.hasTable 0).mpr (.inr rfl), ?_,
    freeEntries_drawn hdrawn hstarts.entries, ?_⟩
  · rw [hstarts.kernelPool, hkernel]
    exact hstarts.index
  · intro i
    rw [PagingState.addr, hstarts.entries, PagingState.addr, hentries]
    split <;> split <;> rfl

/-- The three parts of `paging_init` after `setupAvailablePages`. -/
theorem heapMachine_start (hreach : pagingMachine.Reach allowed ⟨s, .available, regions⟩)
    (hinit : pagingInit s = .ok ((), s'))
    (hclear : allowed ⟨s, .available, regions⟩ .clearIdentityPages)
    (hpool : ∀ u, clearIdentityPages s = .ok ((), u) →
      allowed ⟨u, .cleared, regions⟩ .initKernelPool) :
    (heapMachine allowed).start ⟨s', []⟩ := by
  obtain ⟨_, u, hcleared, hrest⟩ := bind_eq_ok hinit
  obtain ⟨_, w, hpooled, hheap⟩ := bind_eq_ok hrest
  have hfirst : pagingMachine.Reach allowed ⟨u, .cleared, regions⟩ :=
    .step hreach hclear ⟨fun _ heq => Call.noConfusion heq, rfl, hcleared, rfl⟩
  have hsecond : pagingMachine.Reach allowed ⟨w, .pooled, regions⟩ :=
    .step hfirst (hpool u hcleared) ⟨fun _ heq => Call.noConfusion heq, rfl, hpooled, rfl⟩
  exact ⟨rfl, _, hsecond, rfl, hheap⟩

/-- One page. -/
theorem Ready.pallocHeap {j : Nat} (h : Ready s s' (j :: rest)) (haligned : s.addr j % 4096 = 0)
    (hne : s.addr j ≠ NO_ADDR) : ∃ s'', (heapMachine allowed).step ⟨s', []⟩ ⟨1, s'.kernelPool, 0⟩
      ⟨s'', [⟨4096, 1⟩]⟩ ∧ s''.frames = (s'.mapped 1 (s.addr j) 0).frames := by
  have hfirst : firstFree s'.physicalPageEntries = some j := by
    rw [firstFree_eq_head, h.freeEntries]
    rfl
  rw [← h.addr] at haligned hne ⊢
  obtain ⟨s'', hrun, hframes⟩ := h.paged.pallocHeap_run h.index hfirst haligned hne h.hasTable
  exact ⟨s'', ⟨rfl, 4096, hrun, by rw [if_neg (by decide)]⟩, hframes⟩

end FirstCall

/-- One page, in a frame of the second region. -/
theorem palloc_heap_page_fresh_after_boot :
    ∃ h : HeapRun, h.given = [⟨4096, 1⟩] ∧ GivenSound h := by
  obtain ⟨s, hrun, hentries, haddr, _, hpools⟩ := @setup_leftover 0
  have hreach : pagingMachine.Reach (fun k c => c.KeepsPool k) ⟨s, .available, splitMap⟩ :=
    atBoot_leftover.reach_setup usableMap_split ⟨tablesFit_split, Call.noConfusion⟩ hrun
  have hsound := (atBoot_leftover.setup usableMap_split tablesFit_split hrun).1
  have hsupply : Supply s [33, 34, 35, 36, 37] [38, 39, 40] := hsound.supply hentries
  have hzero : s.index (kptov (s.addr 33)) = 0 := by
    rw [PagingState.index, hpools]
    simp only [leftover]
    decide
  obtain ⟨s', hinit, hready⟩ := hsupply.ready hzero
  have hstart : (heapMachine fun k c => c.KeepsPool k).start ⟨s', []⟩ := by
    refine heapMachine_start hreach hinit ⟨trivial, Call.noConfusion⟩ fun u hclear => ⟨trivial, ?_⟩
    intro _
    obtain ⟨u', hclear', _, hentries', _⟩ := hsupply.clearIdentityPages
    obtain rfl := congrArg Prod.snd (Except.ok.inj (hclear'.symm.trans hclear))
    exact (framesConsecutive_range hentries haddr).congr hentries'
  have hfree : s.addr 38 = (0x200 + 5) * 4096 := haddr 5 (by decide)
  obtain ⟨s'', hstep, _⟩ := hready.pallocHeap (by omega) (by unfold NO_ADDR; omega)
  refine ⟨_, rfl, palloc_heap_pages_fresh (.step (.start hstart) ⟨fun _ => ?_, ?_⟩ hstep)⟩
  · rw [hready.index]
    dsimp only
    omega
  · intro hflag
    exact absurd (show fZero 0 = true from hflag) (by decide)

/-- The last page of the map is a table of the window. -/
def tableMap : List MemoryMapEntry := [⟨0x100000, 0x26000⟩, ⟨0x1405000, 0x1000⟩]

theorem pageAt_table {i : Nat} (hi : 33 ≤ i) {r : MemoryMapEntry} {x : Nat} :
    pageAt tableMap i = some (r, x) ↔ i < 38 ∧ r = ⟨0x100000, 0x26000⟩ ∧ x = i ∨
      i = 38 ∧ r = ⟨0x1405000, 0x1000⟩ ∧ x = 0 := by
  have hfirst : (⟨0x100000, 0x26000⟩ : MemoryMapEntry).maxPages.toNat = 38 := by decide
  have hsecond : (⟨0x1405000, 0x1000⟩ : MemoryMapEntry).maxPages.toNat = 1 := by decide
  rw [tableMap, pageAt, hfirst, pageAt, hsecond, pageAt]
  split
  · rw [Option.some.injEq, Prod.mk.injEq]
    constructor
    · rintro ⟨rfl, rfl⟩
      exact .inl ⟨by omega, rfl, rfl⟩
    · rintro (⟨_, rfl, rfl⟩ | ⟨_, rfl, rfl⟩)
      · exact ⟨rfl, rfl⟩
      · omega
  · split
    · rw [Option.some.injEq, Prod.mk.injEq]
      constructor
      · rintro ⟨rfl, rfl⟩
        exact .inr ⟨by omega, rfl, by omega⟩
      · rintro (⟨_, rfl, rfl⟩ | ⟨_, rfl, rfl⟩)
        · omega
        · exact ⟨rfl, by omega⟩
    · constructor
      · intro h
        cases h
      · omega

/-- The heap is given the page table of the last 4 MiB of the window. -/
theorem palloc_heap_pages_not_fresh :
    ¬ ∀ h, (heapMachine fun _ _ => True).Reachable h → GivenSound h := by
  intro hall
  obtain ⟨s, hrun, havailable⟩ := atBoot_blankBoot.setup_available tableMap ⟨0x100000, 0x26000⟩ 32
    (by decide) (by decide) basePdFits_plain fun _ => not_bootTable_plain
  have hentries : s.freeEntries = List.range' 33 6 := by
    refine havailable.freeEntries (fun i hi => ?_) (by decide)
    constructor
    · rintro ⟨⟨r, x⟩, hpage⟩
      have := (pageAt_table hi).mp hpage
      omega
    · rintro ⟨_, hhigh⟩
      by_cases hlast : i = 38
      · exact ⟨_, (pageAt_table hi).mpr (.inr ⟨hlast, rfl, rfl⟩)⟩
      · exact ⟨_, (pageAt_table hi).mpr (.inl ⟨by omega, rfl, rfl⟩)⟩
  have hfree : ∀ i, s.Free i ↔ 33 ≤ i ∧ i < 39 := by
    intro i
    rw [← mem_freeEntries, hentries, List.mem_range'_1]
  have haddr : ∀ i, 33 ≤ i → i < 38 → s.addr i = (0x100 + i) * 4096 := by
    intro i hlow hhigh
    rw [havailable.addr i _ _ ((hfree i).mpr (by omega))
      ((pageAt_table hlow).mpr (.inl ⟨hhigh, rfl, rfl⟩))]
    dsimp only
    unfold u32
    omega
  have hlast : s.addr 38 = 0x1405000 :=
    havailable.addr 38 _ _ ((hfree 38).mpr (by decide))
      ((pageAt_table (by decide)).mpr (.inr ⟨rfl, rfl, rfl⟩))
  have hsupply : Supply s [33, 34, 35, 36, 37] [38] := by
    have hmem : ∀ i ∈ [33, 34, 35, 36, 37], 33 ≤ i ∧ i < 38 := by decide
    refine ⟨havailable.paged, hentries, fun i hi => ?_, fun i hi j hj heq => ?_⟩
    · obtain ⟨hlow, hhigh⟩ := hmem i hi
      rw [haddr i hlow hhigh, Frames.Usable, havailable.isTable, Nat.mul_div_cancel _ (by decide)]
      refine ⟨Nat.mul_mod_left _ _, by unfold windowFrames; omega, ?_⟩
      unfold BootTable directoryFrame
      omega
    · obtain ⟨hlow, hhigh⟩ := hmem i hi
      obtain ⟨hlow', hhigh'⟩ := hmem j hj
      rw [haddr i hlow hhigh, haddr j hlow' hhigh'] at heq
      omega
  have hzero : s.index (kptov (s.addr 33)) = 0 := by
    rw [PagingState.index, setupAvailablePages_pools hrun]
    simp only [blankBoot]
  obtain ⟨s', hinit, hready⟩ := hsupply.ready hzero
  have hmap : UsableMap tableMap := ⟨by decide, by decide, by decide⟩
  have hstart : (heapMachine fun _ _ => True).start ⟨s', []⟩ :=
    heapMachine_start (reach_setup hmap trivial hrun) hinit trivial fun _ _ => trivial
  obtain ⟨s'', hstep, hframes⟩ := hready.pallocHeap (by rw [hlast]) (by rw [hlast]; decide)
  have hgiven := hall _ (.step (.start hstart) trivial hstep)
  obtain ⟨_, frame, hframe, hnot, _⟩ := hgiven.own _ List.mem_cons_self 1 ⟨by decide, by decide⟩
  have hslot : s'.frames.HasTable (slotOf 1) := hready.hasTable
  have hmapped : frameOf (s'.mapped 1 (s.addr 38) 0).frames 1 = some 0x1405 := by
    rw [hready.paged.tables.frameOf_mapped hslot, hlast]
  change frameOf s''.frames 1 = some frame at hframe
  rw [hframes, hmapped] at hframe
  obtain rfl := Option.some.inj hframe
  refine hnot ?_
  change s''.frames.IsTable 0x1405
  rw [hframes, mapped_frames, isTable_set (hready.paged.apart _ hslot)]
  have htable : s'.frames.IsTable (windowTable 0x1400) := hready.paged.isTable_window (by decide)
  exact htable

end NickOS3.Paging
