import NickOS3.Paging.Sound
import NickOS3.Paging.Stable

/-!
# What the calls of the allocator keep

Each call of the allocator that returns leaves a sound state sound, by changes of memory
that leave the window alone. For the calls that clear pages this takes that no page table
lies in what they clear.
-/

namespace NickOS3.Paging

open Foundation

/-- What a call does that maps only pages for which `heap` holds and may add tables. -/
structure Grown (heap : Nat → Prop) (s s' : PagingState) : Prop where
  sound : Sound s'
  changes : Changes heap s.frames s'.frames

/-- What a call does that adds no table. -/
structure Kept (heap : Nat → Prop) (s s' : PagingState) : Prop extends Grown heap s s' where
  tables : ∀ f, s'.frames.IsTable f ↔ s.frames.IsTable f

section Relations

variable {heap : Nat → Prop} {s s' s'' : PagingState}

theorem Grown.trans (h : Grown heap s s') (h' : Grown heap s' s'') : Grown heap s s'' :=
  ⟨h'.sound, h.changes.trans h'.changes⟩

theorem Kept.trans (h : Kept heap s s') (h' : Kept heap s' s'') : Kept heap s s'' :=
  ⟨h.toGrown.trans h'.toGrown, fun f => (h'.tables f).trans (h.tables f)⟩

/-- The kernel's variables other than the table of frames do not matter. -/
theorem Sound.kept (h : Sound s) (hframes : s'.frames = s.frames)
    (hentries : s'.physicalPageEntries = s.physicalPageEntries) : Kept heap s s' := by
  refine ⟨⟨h.congr ?_ hentries ?_, ?_⟩, ?_⟩
  · rw [hframes]
    exact h.paged
  · intro f
    rw [hframes]
  · rw [hframes]
    exact .refl
  · intro f
    rw [hframes]

theorem Sound.kept_take (h : Sound s) {i : Nat} (hi : s.Free i) : Kept heap s (s.take i) :=
  ⟨⟨(h.take hi).1, .refl⟩, fun _ => .rfl⟩

theorem Sound.kept_mapped (h : Sound s) {p flags : Nat} (hp : p / 4096 < windowFrames) :
    Kept heap s (s.mapped (tablePage (p / 4096)) p flags) := by
  obtain ⟨hsound, hchange, htables⟩ := h.mapped_window hp
  exact ⟨⟨hsound, .single hchange⟩, htables⟩

/-- No entry becomes free, and the free ones keep their addresses. -/
theorem frameStable_free (s : PagingState) :
    FrameStable fun u => ∀ i, u.Free i → s.Free i ∧ u.addr i = s.addr i where
  set _ _ _ _ hu := hu
  take u j _ hu := by
    intro i hi
    rw [take_addr]
    exact hu i ((take_free i).mp hi).1
  installed _ _ hu := hu
  globals u u' _ hentries _ _ hu := by
    intro i hi
    have haddr : u'.addr i = u.addr i := by
      rw [PagingState.addr, PagingState.addr, hentries]
    have hfree : u.Free i := by
      unfold PagingState.Free at hi ⊢
      rwa [← hentries]
    rw [haddr]
    exact hu i hfree

/-- A frame that is taken stays taken. -/
theorem Kept.taken (h : Kept heap s s')
    (hfree : ∀ i, s'.Free i → s.Free i ∧ s'.addr i = s.addr i) {q : Nat} (hq : s.Taken q) :
    s'.Taken q := by
  refine ⟨⟨hq.1.1, hq.1.2.1, fun htable => hq.1.2.2 ((h.tables _).mp htable)⟩, ?_⟩
  intro i hi
  obtain ⟨hi', haddr⟩ := hfree i hi
  rw [haddr]
  exact hq.2 i hi'

end Relations

/-! ## Stores -/

section Stores

variable {heap : Nat → Prop} {s s' : PagingState} {v : Nat} {f : Nat → Nat}

/-- A store to a frame that is no table. -/
theorem Sound.modify (h : Sound s)
    (hframe : ∀ g, frameOf s.frames (pageOf v) = some g → ¬ s.frames.IsTable g)
    (hrun : modify v f s = .ok ((), s')) :
    Kept heap s s' ∧ ∀ page, page < 1048576 → frameOf s'.frames page = frameOf s.frames page := by
  cases hwalk : frameOf s.frames (pageOf v) with
  | none =>
      have hnone : walk s.frames (pageOf v) = none := by
        cases hw : walk s.frames (pageOf v) with
        | none => rfl
        | some mapping => rw [frameOf, hw] at hwalk; cases hwalk
      rw [Paging.modify, hnone] at hrun
      cases hrun
  | some g =>
      have hnot := hframe g hwalk
      have hne : g ≠ directoryFrame := fun heq => hnot (.inl heq)
      rw [modify_run hwalk] at hrun
      cases hrun
      have hchange : Change heap s.frames (s.set g (wordOf v) (f (s.frames g (wordOf v)))).frames :=
        .data hnot
      refine ⟨⟨⟨h.congr (hchange.paged h.paged) rfl fun x => isTable_set hne, .single hchange⟩,
        fun x => isTable_set hne⟩, ?_⟩
      intro page hpage
      unfold frameOf
      rw [set_frames, walk_set hne]
      intro hpresent htable _
      exact hnot (.inr ⟨_, ⟨slotOf_lt hpage, hpresent⟩, htable⟩)

/-- A word of the window from `ptr` on that may be stored to: no page table lies there. -/
def Frames.Clearable (m : Frames) (ptr n : Nat) : Prop :=
  ∀ k < n, ∀ f < windowFrames, pageOf (ptr + 4 * k) = kernelPage + f → ¬ m.IsTable f

/-- A store to the window or above faults or hits a frame of the window. -/
theorem Sound.modify_window (h : Sound s) (hlow : kernelPage ≤ pageOf v) (hv : v < 4294967296)
    (hclear : s.frames.Clearable v 1) (hrun : Paging.modify v f s = .ok ((), s')) :
    Kept heap s s' ∧ u32 (v + 4) = v + 4 ∧ ∀ n, s.frames.Clearable v (n + 1) →
      s'.frames.Clearable (v + 4) n := by
  have hpage : pageOf v < 1048576 := by
    unfold pageOf
    omega
  have hwindow : ∀ g, frameOf s.frames (pageOf v) = some g →
      g < windowFrames ∧ pageOf v = kernelPage + g := by
    intro g hg
    have hslot := hasTable_of_frameOf hpage hg
    have hhigh : slotOf (pageOf v) < 774 := by
      by_contra hge
      exact h.paged.high _ (by omega) hslot
    have hlt : pageOf v - kernelPage < windowFrames := by
      unfold slotOf at hhigh
      unfold kernelPage windowFrames
      omega
    have heq : tablePage (pageOf v - kernelPage) = pageOf v := by
      rw [tablePage_window hlt]
      omega
    have hframe := h.paged.frameOf_window hlt
    rw [heq, hg] at hframe
    have hg' : g = pageOf v - kernelPage := Option.some.inj hframe
    rw [hg']
    exact ⟨hlt, by omega⟩
  have hframe : ∀ g, frameOf s.frames (pageOf v) = some g → ¬ s.frames.IsTable g := by
    intro g hg
    obtain ⟨hlt, heq⟩ := hwindow g hg
    exact hclear 0 (by omega) g hlt (by rw [Nat.mul_zero, Nat.add_zero]; exact heq)
  have hkept : Kept heap s s' := (h.modify hframe hrun).1
  refine ⟨hkept, ?_, ?_⟩
  · cases hwalk : frameOf s.frames (pageOf v) with
    | none =>
        rw [frameOf, Option.map_eq_none_iff] at hwalk
        rw [Paging.modify, hwalk] at hrun
        cases hrun
    | some g =>
        obtain ⟨hlt, heq⟩ := hwindow g hwalk
        apply u32_of_lt
        unfold windowFrames at hlt
        unfold pageOf kernelPage at heq
        omega
  · intro n hrest k hk g hg hpage'
    rw [hkept.tables]
    apply hrest (k + 1) (by omega) g hg
    rw [Nat.mul_succ, Nat.add_comm (4 * k), ← Nat.add_assoc]
    exact hpage'

theorem Frames.Clearable.mono {m : Frames} {ptr n n' : Nat} (h : m.Clearable ptr n')
    (hle : n ≤ n') : m.Clearable ptr n :=
  fun k hk => h k (by omega)

/-- `memset` over the window. -/
theorem Sound.memset (h : Sound s) {c ptr n : Nat} (hlow : kernelPage ≤ pageOf ptr)
    (hptr : ptr < 4294967296) (hclear : s.frames.Clearable ptr n)
    (hrun : memset c ptr n s = .ok ((), s')) : Kept heap s s' := by
  induction n generalizing ptr s with
  | zero =>
      cases hrun
      exact h.kept rfl rfl
  | succ n ih =>
      obtain ⟨_, mid, hfirst, hrest⟩ := Program.bind_eq_ok hrun
      obtain ⟨hkept, hnext, hclear'⟩ := h.modify_window hlow hptr (hclear.mono (by omega)) hfirst
      rw [hnext] at hrest
      refine hkept.trans (ih hkept.sound ?_ ?_ (hclear' n hclear) hrest)
      · unfold pageOf at *
        omega
      · exact hnext ▸ u32_lt _

/-- `memcpy` to the window. -/
theorem Sound.memcpy (h : Sound s) {dest source n : Nat} (hlow : kernelPage ≤ pageOf dest)
    (hdest : dest < 4294967296) (hclear : s.frames.Clearable dest n)
    (hrun : memcpy dest source n s = .ok ((), s')) : Kept heap s s' := by
  induction n generalizing dest source s with
  | zero =>
      cases hrun
      exact h.kept rfl rfl
  | succ n ih =>
      obtain ⟨word, mid, hload, hstores⟩ := Program.bind_eq_ok hrun
      obtain rfl : mid = s := by
        unfold load at hload
        split at hload
        · exact (congrArg Prod.snd (Except.ok.inj hload)).symm
        · cases hload
      obtain ⟨_, mid', hfirst, hrest⟩ := Program.bind_eq_ok hstores
      obtain ⟨hkept, hnext, hclear'⟩ := h.modify_window hlow hdest (hclear.mono (by omega)) hfirst
      rw [hnext] at hrest
      refine hkept.trans (ih hkept.sound ?_ ?_ (hclear' n hclear) hrest)
      · unfold pageOf at *
        omega
      · exact hnext ▸ u32_lt _

end Stores

/-! ## `palloc_kern` and `palloc_heap` -/

section Pallocs

variable {heap : Nat → Prop} {s s' : PagingState} {flags : Nat}

theorem noFrame_eq_ok {res : Option Nat} (h : noFrame flags s = .ok (res, s')) :
    res = none ∧ s' = s := by
  unfold noFrame at h
  split at h
  · cases h
  · cases h
    exact ⟨rfl, rfl⟩

/-- A usable frame has its page in the window. -/
theorem Frames.Usable.kernelPage_le {m : Frames} {address : Nat} (h : m.Usable address) :
    kernelPage ≤ pageOf (kptov address) := by
  obtain ⟨_, hlt, _⟩ := h
  unfold windowFrames at hlt
  unfold kptov kernelPage pageOf u32
  omega

/-- A usable address is not `NO_ADDR`. -/
theorem Frames.Usable.ne_noAddr {m : Frames} {address : Nat} (h : m.Usable address) :
    address ≠ NO_ADDR := by
  rintro rfl
  exact absurd h.1 (by decide)

/-- One round of `palloc_kern`. -/
theorem Sound.pallocKern_round (h : Sound s) (heap : Nat → Prop) (flags : Nat) {j : Nat}
    (hj : firstFree s.physicalPageEntries = some j) :
    getNextFreePhysicalPage s = .ok (s.addr j, s.take j) ∧
      mapPage (s.addr j) (kptov (s.addr j)) flags (s.take j)
        = .ok ((), (s.take j).mapped (tablePage (s.addr j / 4096)) (s.addr j) flags) ∧
      Kept heap s ((s.take j).mapped (tablePage (s.addr j / 4096)) (s.addr j) flags) := by
  have hfree := firstFree_eq_some hj
  obtain ⟨htake, htaken⟩ := h.take hfree
  exact ⟨getNextFreePhysicalPage_run hj,
    htake.paged.mapPage_window htaken.1.1 htaken.1.2.1 (htaken.1.not_windowTable htake.paged),
    (h.kept_take hfree).trans (htake.kept_mapped htaken.1.2.1)⟩

/-- The loop of `palloc_kern`, and the address it ends with. -/
theorem Sound.pallocKernLoop (h : Sound s) {n i r : Nat} {res : Option Nat}
    (hrun : pallocKernLoop flags n i r s = .ok (res, s')) :
    Kept heap s s' ∧ ∀ x, res = some x →
      if i = 0 ∧ 0 < n then
        ∃ j, firstFree s.physicalPageEntries = some j ∧ x = kptov (s.addr j)
      else x = r := by
  induction n generalizing i r s with
  | zero =>
      cases hrun
      refine ⟨h.kept rfl rfl, ?_⟩
      intro x hx
      rw [if_neg (by omega)]
      exact (Option.some.inj hx).symm
  | succ n ih =>
      rw [Paging.pallocKernLoop] at hrun
      cases hfree : firstFree s.physicalPageEntries with
      | none =>
          rw [Program.bind_run_of_ok (getNextFreePhysicalPage_none hfree), if_pos rfl] at hrun
          obtain ⟨rfl, rfl⟩ := noFrame_eq_ok hrun
          exact ⟨h.kept rfl rfl, fun x hx => by cases hx⟩
      | some j =>
          obtain ⟨hget, hmap, hkept⟩ := h.pallocKern_round heap flags hfree
          rw [Program.bind_run_of_ok hget,
            if_neg (h.usable j (firstFree_eq_some hfree)).ne_noAddr,
            Program.bind_run_of_ok hmap] at hrun
          obtain ⟨hrest, hres⟩ := ih hkept.sound hrun
          refine ⟨hkept.trans hrest, ?_⟩
          intro x hx
          have hx' := hres x hx
          rw [if_neg (by omega)] at hx'
          by_cases hi : i = 0
          · rw [if_pos ⟨hi, by omega⟩]
            rw [if_pos hi] at hx'
            exact ⟨j, rfl, hx'⟩
          · rw [if_neg (by omega)]
            rw [if_neg hi] at hx'
            exact hx'

/-- Where `palloc_kern` clears its pages, four times as many pages of the window from the
first one on hold no page table. -/
def PagingState.ClearsApart (s : PagingState) (numPages : Int) (flags : Nat) : Prop :=
  fZero flags = true → 0 ≤ numPages ∧ ∀ j, firstFree s.physicalPageEntries = some j →
    ∀ f, s.addr j / 4096 ≤ f → (f : Int) < s.addr j / 4096 + 4 * numPages → ¬ s.frames.IsTable f

/-- The words that `memset` and `memcpy` write from the first page on. -/
theorem PagingState.ClearsApart.clearable {numPages : Int} (h : s.ClearsApart numPages flags)
    (hzero : fZero flags = true) {j : Nat} (hj : firstFree s.physicalPageEntries = some j)
    (husable : s.frames.Usable (s.addr j)) {n : Nat} (hn : (n : Int) ≤ numPages * 4096) :
    s.frames.Clearable (kptov (s.addr j)) n := by
  obtain ⟨haligned, hlt, _⟩ := husable
  intro k hk f hf hpage
  unfold windowFrames at hlt
  have hkptov : kptov (s.addr j) = 3221225472 + s.addr j := by
    unfold kptov u32
    omega
  rw [hkptov] at hpage
  unfold pageOf kernelPage at hpage
  exact (h hzero).2 j hj f (by omega) (by omega)

theorem ofInt_le {x : Int} (h : 0 ≤ x) : (ofInt x : Int) ≤ x := by
  unfold ofInt
  omega

/-- `palloc_kern` -/
theorem Sound.pallocKern (h : Sound s) {numPages : Int} {r : Nat}
    (hclear : s.ClearsApart numPages flags)
    (hrun : pallocKern numPages flags s = .ok (r, s')) : Kept heap s s' := by
  obtain ⟨res, mid, hloop, hrest⟩ := Program.bind_eq_ok hrun
  obtain ⟨hkept, hres⟩ : Kept heap s mid ∧ _ := h.pallocKernLoop hloop
  cases res with
  | none =>
      cases hrest
      exact hkept
  | some x =>
      obtain ⟨_, mid', hzero, hpure⟩ := Program.bind_eq_ok hrest
      cases hpure
      unfold zeroPages at hzero
      split at hzero
      · rename_i hflag
        have hn := (hclear hflag).1
        have hx := hres _ rfl
        split at hx
        · rename_i hpos
          obtain ⟨j, hj, hx⟩ := hx
          rw [hx] at hzero
          have husable := h.usable j (firstFree_eq_some hj)
          have hcl : mid.frames.Clearable (kptov (s.addr j)) (ofInt (numPages * PGSIZE)) := by
            intro k hk f hf hpage
            rw [hkept.tables]
            refine hclear.clearable hflag hj husable ?_ k hk f hf hpage
            have := @ofInt_le (numPages * PGSIZE) (by unfold PGSIZE; omega)
            unfold PGSIZE at this ⊢
            omega
          exact hkept.trans (hkept.sound.memset (husable.kernelPage_le) (u32_lt _) hcl hzero)
        · obtain rfl : numPages = 0 := by omega
          cases hzero
          exact hkept
      · cases hzero
        exact hkept

/-- The heap pages `palloc_heap` maps, from the index of the pool it is given on. -/
def PagingState.HeapPages (s : PagingState) (numPages : Int) (memPool page : Nat) : Prop :=
  s.index memPool ≤ page ∧ (page : Int) < s.index memPool + numPages

/-- The heap pages lie below the window. -/
def PagingState.HeapFits (s : PagingState) (numPages : Int) (memPool : Nat) : Prop :=
  0 ≤ s.index memPool ∧ s.index memPool + numPages ≤ kernelPage

/-- The index of a pool after a round of `palloc_heap`. -/
theorem index_linkVirtPage (memPool : Nat) :
    (s.linkVirtPage memPool).index memPool
      = if memPool = s.kernelPool then s.index memPool + 1 else s.index memPool := by
  unfold PagingState.linkVirtPage PagingState.index PagingState.setPool PagingState.access
    Pool.setEntry
  dsimp only
  rw [Function.update_apply]
  split
  · rename_i heq
    rw [heq]
  · rfl

/-- The address of a heap page. -/
theorem ofInt_heap {x : Int} (hlow : 0 ≤ x) (hhigh : x < kernelPage) :
    ofInt (x * 4096) % 4096 = 0 ∧ pageOf (ofInt (x * 4096)) = x.toNat := by
  unfold kernelPage at hhigh
  unfold ofInt pageOf
  omega

/-- The loop of `palloc_heap`. -/
theorem Sound.pallocHeapLoop (h : Sound s) {memPool n i r : Nat} {res : Option Nat}
    (hfits : s.HeapFits n memPool) (hheap : ∀ page, s.HeapPages n memPool page → heap page)
    (hrun : pallocHeapLoop memPool flags n i r s = .ok (res, s')) : Grown heap s s' := by
  induction n generalizing i r s with
  | zero =>
      cases hrun
      exact (h.kept rfl rfl).toGrown
  | succ n ih =>
      have hcopy : copyVirtPage s = .ok ((), s.access s.kernelPool (s.index s.kernelPool)) := rfl
      have hcopied : Kept heap s (s.access s.kernelPool (s.index s.kernelPool)) := h.kept rfl rfl
      rw [Paging.pallocHeapLoop, Program.bind_run_of_ok hcopy] at hrun
      generalize hu : s.access s.kernelPool (s.index s.kernelPool) = u at hrun hcopied
      have hindex : ∀ pool, u.index pool = s.index pool := fun _ => hu ▸ rfl
      have hkernel : u.kernelPool = s.kernelPool := hu ▸ rfl
      cases hfree : firstFree u.physicalPageEntries with
      | none =>
          rw [Program.bind_run_of_ok (getNextFreePhysicalPage_none hfree), if_pos rfl] at hrun
          obtain ⟨rfl, rfl⟩ := noFrame_eq_ok hrun
          exact hcopied.toGrown
      | some j =>
          have hj := firstFree_eq_some hfree
          have huse := hcopied.sound.usable j hj
          obtain ⟨htake, _⟩ := hcopied.sound.take hj
          have hget : getNextFreePhysicalPage u = .ok (u.addr j, u.take j) :=
            getNextFreePhysicalPage_run hfree
          have hnext : nextVaddr memPool (u.take j)
              = .ok (ofInt (u.index memPool * 4096), u.take j) := rfl
          rw [Program.bind_run_of_ok hget, if_neg huse.ne_noAddr,
            Program.bind_run_of_ok hnext] at hrun
          obtain ⟨_, w, hmap, hrun⟩ := Program.bind_eq_ok hrun
          obtain ⟨hlow, hhigh⟩ := hfits
          have hv := @ofInt_heap (u.index memPool) (by rw [hindex]; exact hlow)
            (by rw [hindex]; omega)
          have hpage : heap (pageOf (ofInt (u.index memPool * 4096))) := by
            apply hheap
            rw [PagingState.HeapPages, hv.2, hindex]
            omega
          have hbelow : pageOf (ofInt (u.index memPool * 4096)) < kernelPage := by
            rw [hv.2, hindex]
            omega
          obtain ⟨hw, hchanges, _⟩ := htake.mapPage_heap hv.1 hbelow huse.1 hpage hmap
          have hpools : w.pools = s.pools ∧ w.kernelPool = s.kernelPool :=
            (stable_pools fun pools pool => pools = s.pools ∧ pool = s.kernelPool).mapPage _ _ _
              (u.take j) ⟨hu ▸ rfl, hkernel⟩ () w hmap
          have hlink : Kept heap w (w.linkVirtPage memPool) := hw.kept rfl rfl
          have hround : Grown heap s (w.linkVirtPage memPool) :=
            (hcopied.toGrown.trans ⟨hw, hchanges⟩).trans hlink.toGrown
          have hwindex : (w.linkVirtPage memPool).index memPool = s.index memPool ∨
              (w.linkVirtPage memPool).index memPool = s.index memPool + 1 := by
            rw [index_linkVirtPage, PagingState.index, hpools.1]
            split
            · exact .inr rfl
            · exact .inl rfl
          refine hround.trans (ih hlink.sound ?_ ?_ hrun)
          · unfold PagingState.HeapFits
            omega
          · intro page hpage'
            apply hheap
            unfold PagingState.HeapPages at hpage' ⊢
            omega

/-- `palloc_heap`, without clearing the pages. -/
theorem Sound.pallocHeap (h : Sound s) {numPages : Int} {memPool r : Nat}
    (hzero : fZero flags = false) (hfits : 0 < numPages → s.HeapFits numPages memPool)
    (hrun : pallocHeap numPages memPool flags s = .ok (r, s')) :
    Grown (s.HeapPages numPages memPool) s s' := by
  obtain ⟨res, mid, hloop, hrest⟩ := Program.bind_eq_ok hrun
  have hmid : s' = mid := by
    cases res with
    | none =>
        cases hrest
        rfl
    | some x =>
        obtain ⟨_, mid', hclear, hpure⟩ := Program.bind_eq_ok hrest
        unfold zeroPages at hclear
        rw [if_neg (by rw [hzero]; exact Bool.false_ne_true)] at hclear
        cases hclear
        cases hpure
        rfl
  subst hmid
  by_cases hpos : 0 < numPages
  · have hn : (numPages.toNat : Int) = numPages := by omega
    refine h.pallocHeapLoop ?_ ?_ hloop
    · rw [hn]
      exact hfits hpos
    · intro page hpage
      rwa [hn] at hpage
  · rw [show numPages.toNat = 0 by omega] at hloop
    cases hloop
    exact (h.kept rfl rfl).toGrown

end Pallocs

/-! ## `paging_init` -/

section Init

variable {heap : Nat → Prop} {s s' : PagingState} {flags : Nat}

/-- A frame for `init_pool`; without one `map_page` panics. -/
theorem mapPage_noAddr {v : Nat} : mapPage NO_ADDR v flags s = .error .panic := by
  rw [mapPage, mapPageWithin, if_pos (.inr (by decide)), Program.throw_run]

theorem Sound.initPoolLoop (h : Sound s) {n i r r' : Nat}
    (hrun : initPoolLoop flags n i r s = .ok (r', s')) : Kept heap s s' := by
  induction n generalizing i r s with
  | zero =>
      cases hrun
      exact h.kept rfl rfl
  | succ n ih =>
      rw [Paging.initPoolLoop] at hrun
      cases hfree : firstFree s.physicalPageEntries with
      | none =>
          rw [Program.bind_run_of_ok (getNextFreePhysicalPage_none hfree), Program.bind_run,
            mapPage_noAddr] at hrun
          cases hrun
      | some j =>
          obtain ⟨hget, hmap, hkept⟩ := h.pallocKern_round heap flags hfree
          rw [Program.bind_run_of_ok hget, Program.bind_run_of_ok hmap] at hrun
          exact hkept.trans (ih hkept.sound hrun)

theorem Sound.initKernelPool (h : Sound s) (hrun : initKernelPool s = .ok ((), s')) :
    Kept heap s s' := by
  obtain ⟨pool, mid, hpool, hrest⟩ := Program.bind_eq_ok hrun
  cases hrest
  have hkept : Kept heap s mid := h.initPoolLoop hpool
  exact hkept.trans (hkept.sound.kept rfl rfl)

/-- The stores of `initialiseHeap` to a page whose frame is no table. -/
theorem Sound.initialiseHeap (h : Sound s) {frame : Nat} (hframe : frameOf s.frames 0 = some frame)
    (hfresh : ¬ s.frames.IsTable frame) (hrun : initialiseHeap 0 PGSIZE s = .ok ((), s')) :
    Kept heap s s' ∧ frameOf s'.frames 0 = some frame := by
  have hstore : ∀ {u u' : PagingState} (v : Nat) (word : Nat), pageOf v = 0 → Kept heap s u →
      frameOf u.frames 0 = some frame → store v word u = .ok ((), u') →
      Kept heap s u' ∧ frameOf u'.frames 0 = some frame := by
    intro u u' v word hv hkept hu hstep
    have hnot : ∀ g, frameOf u.frames (pageOf v) = some g → ¬ u.frames.IsTable g := by
      intro g hg
      rw [hv, hu] at hg
      obtain rfl := Option.some.inj hg
      rw [hkept.tables]
      exact hfresh
    obtain ⟨hkept', hsame⟩ := hkept.sound.modify hnot hstep
    exact ⟨hkept.trans hkept', by rw [hsame 0 (by decide)]; exact hu⟩
  unfold Paging.initialiseHeap at hrun
  obtain ⟨_, s₁, h₁, hrun⟩ := Program.bind_eq_ok hrun
  obtain ⟨_, s₂, h₂, hrun⟩ := Program.bind_eq_ok hrun
  obtain ⟨_, s₃, h₃, hrun⟩ := Program.bind_eq_ok hrun
  obtain ⟨_, s₄, h₄, hrun⟩ := Program.bind_eq_ok hrun
  obtain ⟨_, s₅, h₅, h₆⟩ := Program.bind_eq_ok hrun
  obtain ⟨k₁, f₁⟩ := hstore _ _ (by decide) (h.kept rfl rfl) hframe h₁
  obtain ⟨k₂, f₂⟩ := hstore _ _ (by decide) k₁ f₁ h₂
  obtain ⟨k₃, f₃⟩ := hstore _ _ (by decide) k₂ f₂ h₃
  obtain ⟨k₄, f₄⟩ := hstore _ _ (by decide) k₃ f₃ h₄
  obtain ⟨k₅, f₅⟩ := hstore _ _ (by decide) k₄ f₄ h₅
  exact hstore _ _ (by decide) k₅ f₅ h₆

/-- Assignments to a pool concern neither memory nor the table of frames. -/
theorem modifyPool_same {pl : Nat} {f : Pool → Pool} (hrun : modifyPool pl f s = .ok ((), s')) :
    s'.frames = s.frames ∧ s'.physicalPageEntries = s.physicalPageEntries := by
  cases hrun
  exact ⟨rfl, rfl⟩

theorem modifyFirstPage_same {pl : Nat} {f : VirtPage → VirtPage}
    (hrun : modifyFirstPage pl f s = .ok ((), s')) :
    s'.frames = s.frames ∧ s'.physicalPageEntries = s.physicalPageEntries := by
  cases hrun
  exact ⟨rfl, rfl⟩

/-- `init_heap_page` maps page 0 to a frame it takes. -/
theorem Sound.initHeapPage_page (h : Sound s) {pl : Nat}
    (hrun : initHeapPage pl flags s = .ok ((), s')) :
    Grown (· = 0) s s' ∧ ∃ f, frameOf s'.frames 0 = some f ∧ s'.Taken (f * 4096) := by
  unfold Paging.initHeapPage at hrun
  obtain ⟨_, s₀, hcheck, hrest⟩ := Program.bind_eq_ok hrun
  have hs₀ : s₀ = s := by
    unfold checkFresh at hcheck
    split at hcheck
    · cases hcheck
    · cases hcheck
      rfl
  subst hs₀
  cases hfree : firstFree s₀.physicalPageEntries with
  | none =>
      rw [Program.bind_run_of_ok (getNextFreePhysicalPage_none hfree)] at hrest
      obtain ⟨_, s₁, _, hrest⟩ := Program.bind_eq_ok hrest
      obtain ⟨_, s₂, _, hrest⟩ := Program.bind_eq_ok hrest
      rw [Program.bind_run, mapPage_noAddr] at hrest
      cases hrest
  | some j =>
      have hj := firstFree_eq_some hfree
      obtain ⟨htake, htaken⟩ := h.take hj
      have hget : getNextFreePhysicalPage s₀ = .ok (s₀.addr j, s₀.take j) :=
        getNextFreePhysicalPage_run hfree
      rw [Program.bind_run_of_ok hget] at hrest
      obtain ⟨_, s₁, hs₁, hrest⟩ := Program.bind_eq_ok hrest
      obtain ⟨_, s₂, hs₂, hrest⟩ := Program.bind_eq_ok hrest
      obtain ⟨_, s₃, hmap, hrest⟩ := Program.bind_eq_ok hrest
      obtain ⟨_, s₄, hs₄, hrest⟩ := Program.bind_eq_ok hrest
      obtain ⟨_, s₅, hs₅, hrest⟩ := Program.bind_eq_ok hrest
      obtain ⟨hf₁, he₁⟩ := modifyPool_same hs₁
      obtain ⟨hf₂, he₂⟩ := modifyFirstPage_same hs₂
      obtain ⟨hf₄, he₄⟩ := modifyFirstPage_same hs₄
      obtain ⟨hf₅, he₅⟩ := modifyPool_same hs₅
      have hframes : s₂.frames = (s₀.take j).frames := hf₂.trans hf₁
      have hentries : s₂.physicalPageEntries = (s₀.take j).physicalPageEntries := he₂.trans he₁
      have hbefore : Kept (· = 0) s₀ s₂ := (h.kept_take hj).trans (htake.kept hframes hentries)
      have htaken₂ : s₂.Taken (s₀.addr j) := htaken.congr hentries fun f => by rw [hframes]
      have hpage : pageOf 0 = 0 := rfl
      obtain ⟨hsound, hchanges, htaken₃, hframe⟩ : Sound s₃ ∧ Changes (· = 0) s₂.frames s₃.frames ∧
          (∀ q, s₂.Taken q → s₃.Taken q) ∧ _ :=
        hbefore.sound.mapPage_heap (by decide) (by rw [hpage]; decide) htaken.1.1 hpage hmap
      have hafter : Kept (· = 0) s₃ s₅ := hsound.kept (hf₅.trans hf₄) (he₅.trans he₄)
      have hlt : s₀.addr j / 4096 < 1048576 := by
        have := htaken.1.2.1
        unfold windowFrames at this
        omega
      rw [hpage, Nat.mod_eq_of_lt hlt, ← hf₄, ← hf₅] at hframe
      have htaken₅ : s₅.Taken (s₀.addr j) := (htaken₃ _ htaken₂).congr (he₅.trans he₄) hafter.tables
      obtain ⟨hheap, hpage'⟩ : Kept (· = 0) s₅ s' ∧ _ :=
        hafter.sound.initialiseHeap hframe htaken₅.1.2.2 hrest
      refine ⟨((hbefore.toGrown.trans ⟨hsound, hchanges⟩).trans hafter.toGrown).trans hheap.toGrown,
        _, hpage', ?_⟩
      rw [Nat.div_mul_cancel (Nat.dvd_of_mod_eq_zero htaken.1.1)]
      exact hheap.taken (((frameStable_free s₅).initialiseHeap _ _) s₅ (fun _ hi => ⟨hi, rfl⟩) () s'
        hrest) htaken₅

theorem Sound.initHeapPage (h : Sound s) {pl : Nat}
    (hrun : Paging.initHeapPage pl flags s = .ok ((), s')) : Grown (· = 0) s s' :=
  (h.initHeapPage_page hrun).1

end Init

/-! ## `clear_identity_pages` -/

section ClearIdentity

variable {s s' : PagingState}

/-- A directory entry loses its table. -/
theorem Paged.cleared {m : Frames} (h : Paged m) {slot : Nat} (hslot : slot < 768) :
    Paged (m.set directoryFrame slot (clearPresent (m directoryFrame slot))) ∧
      ∀ x, (m.set directoryFrame slot (clearPresent (m directoryFrame slot))).HasTable x
        ↔ m.HasTable x ∧ x ≠ slot := by
  have hhas : ∀ x, (m.set directoryFrame slot (clearPresent (m directoryFrame slot))).HasTable x
      ↔ m.HasTable x ∧ x ≠ slot := by
    intro x
    unfold Frames.HasTable
    rw [Frames.set_apply]
    by_cases hx : x = slot
    · simp [hx]
    · simp [hx]
  have htable : ∀ x, x ≠ slot →
      (m.set directoryFrame slot (clearPresent (m directoryFrame slot))).table x = m.table x := by
    intro x hx
    unfold Frames.table
    rw [Frames.set_apply, if_neg fun heq => hx heq.2]
  refine ⟨⟨?_, ?_, ?_, ?_, ?_, ?_⟩, hhas⟩
  · intro f hf
    have hne : 768 + f / 1024 ≠ slot := by omega
    rw [hhas, htable _ hne]
    exact ⟨⟨(h.slots f hf).1, hne⟩, (h.slots f hf).2⟩
  · intro f hf
    rw [Frames.set_apply, if_neg fun heq => windowTable_ne heq.1]
    exact h.entries f hf
  · intro x hx hhas'
    exact h.high x hx ((hhas x).mp hhas').1
  · intro x hx
    have hx' := (hhas x).mp hx
    rw [htable x hx'.2]
    exact h.low x hx'.1
  · intro x hx
    have hx' := (hhas x).mp hx
    rw [htable x hx'.2]
    exact h.apart x hx'.1
  · intro x y hx hy heq
    have hx' := (hhas x).mp hx
    have hy' := (hhas y).mp hy
    rw [htable x hx'.2, htable y hy'.2] at heq
    exact h.distinct x y hx'.1 hy'.1 heq

theorem Paged.clearIdentityLoop (h : Paged s.frames) {i n : Nat} (hn : i + n ≤ 768) :
    ∃ s', clearIdentityLoop i n s = .ok ((), s') ∧ Paged s'.frames ∧
      s'.physicalPageEntries = s.physicalPageEntries ∧ s'.returned = s.returned ∧
      (∀ x, s'.frames.HasTable x ↔ s.frames.HasTable x ∧ ¬ (i ≤ x ∧ x < i + n)) ∧
      ∀ x, s'.frames.HasTable x → s'.frames.table x = s.frames.table x := by
  induction n generalizing i s with
  | zero => exact ⟨s, rfl, h, rfl, rfl, fun x => ⟨fun hx => ⟨hx, by omega⟩, And.left⟩,
      fun _ _ => rfl⟩
  | succ n ih =>
      obtain ⟨hpaged, hhas⟩ := h.cleared (show i < 768 by omega)
      have hstep : modify (pdeAddr i) clearPresent s
          = .ok ((), s.set directoryFrame i (clearPresent (s.frames directoryFrame i))) := by
        rw [modify_run (by rw [pageOf_pdeAddr (by omega)]; exact h.tables.directory),
          wordOf_pdeAddr (by omega)]
      obtain ⟨s', hrun, hpaged', hentries, hreturned, hhas', htable⟩ :=
        @ih (s.set directoryFrame i (clearPresent (s.frames directoryFrame i))) hpaged (i + 1)
          (by omega)
      refine ⟨s', ?_, hpaged', hentries, hreturned, ?_, ?_⟩
      · rw [Paging.clearIdentityLoop, Program.bind_run_of_ok hstep, hrun]
      · intro x
        rw [hhas', set_frames, hhas]
        constructor
        · rintro ⟨⟨hx, hne⟩, hout⟩
          exact ⟨hx, by omega⟩
        · rintro ⟨hx, hout⟩
          exact ⟨⟨hx, by omega⟩, by omega⟩
      · intro x hx
        rw [htable x hx, set_frames, Frames.table, Frames.set_apply, if_neg]
        · rfl
        · rintro ⟨_, rfl⟩
          have hne := ((hhas x).mp ((hhas' x).mp hx).1).2
          exact hne rfl

/-- `clear_identity_pages` takes tables away and touches nothing else. -/
theorem Sound.clearIdentityPages (h : Sound s) (hrun : clearIdentityPages s = .ok ((), s')) :
    Sound s' ∧ ¬ s'.frames.HasTable 0 := by
  obtain ⟨s₁, hrun₁, hpaged, hentries, _, hhas, htable⟩ :=
    h.paged.clearIdentityLoop (show 0 + 6 ≤ 768 by decide)
  rw [Paging.clearIdentityPages, hrun₁] at hrun
  cases hrun
  have htables : ∀ f, s'.frames.IsTable f → s.frames.IsTable f := by
    rintro f (hf | ⟨x, hx, heq⟩)
    · exact .inl hf
    · exact .inr ⟨x, ((hhas x).mp hx).1, by rw [← htable x hx]; exact heq⟩
  refine ⟨⟨hpaged, ?_, ?_⟩, ?_⟩
  · intro i hi
    unfold PagingState.Free PagingState.addr at *
    rw [hentries] at hi ⊢
    obtain ⟨haligned, hlt, hnot⟩ := h.usable i hi
    exact ⟨haligned, hlt, fun hf => hnot (htables _ hf)⟩
  · intro i j hi hj heq
    unfold PagingState.Free PagingState.addr at *
    rw [hentries] at hi hj heq
    exact h.distinct i j hi hj heq
  · rw [hhas]
    omega

end ClearIdentity

end NickOS3.Paging
