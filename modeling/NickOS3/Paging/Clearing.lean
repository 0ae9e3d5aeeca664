import NickOS3.Lib.Blocks
import NickOS3.Paging.Contiguity
import NickOS3.Paging.PoolTable

/-!
# Clearing pages

`palloc_kern` and `palloc_heap` pass `memset` the size of their pages in bytes, and it writes
as many words. The bytes of the pages become zero and nothing else changes only where the
words behind the pages lie in frames of the same call or are zero already.
-/

namespace NickOS3.Paging

open Foundation Program

/-- Translations agree while no frame but those of `T` changes, and none of these is a table. -/
theorem frameOf_agrees {m m' : Frames} {T : Nat → Prop} (hT : ∀ f, T f → ¬ m.IsTable f)
    (h : ∀ f, ¬ T f → m' f = m f) {page : Nat} (hpage : page < 1048576) :
    frameOf m' page = frameOf m page := by
  have hkeep : ∀ f, m.IsTable f → m' f = m f := fun f hf => h f fun hin => hT f hin hf
  rw [frameOf, frameOf]
  refine congrArg _ (walk_congr (by rw [hkeep _ (.inl rfl)]) fun hpresent => ?_)
  have htable : m.IsTable (baseAddr (m directoryFrame (slotOf page))) :=
    .inr ⟨slotOf page, ⟨slotOf_lt hpage, hpresent⟩, rfl⟩
  rw [hkeep _ htable]

/-- Word `k` from a pointer on. -/
def wordAddr (ptr k : Nat) : Nat := u32 (ptr + 4 * k)

theorem wordAddr_zero {ptr : Nat} (h : ptr < 4294967296) : wordAddr ptr 0 = ptr := u32_of_lt h

theorem wordAddr_succ (ptr k : Nat) : wordAddr (u32 (ptr + 4)) k = wordAddr ptr (k + 1) := by
  unfold wordAddr u32
  omega

theorem pageOf_lt {vaddr : Nat} (h : vaddr < 4294967296) : pageOf vaddr < 1048576 := by
  unfold pageOf
  omega

/-- `n` words from a pointer on are mapped, and each lies in a frame of `T` or is zero. -/
def Frames.ZeroApart (m : Frames) (T : Nat → Prop) (ptr n : Nat) : Prop :=
  ∀ k < n, ∃ f, frameOf m (pageOf (wordAddr ptr k)) = some f ∧
    (T f ∨ m f (wordOf (wordAddr ptr k)) = 0)

/-- The word at a virtual address. -/
def Frames.read (m : Frames) (vaddr : Nat) : Option Nat :=
  (frameOf m (pageOf vaddr)).map fun f => m f (wordOf vaddr)

section Memset

variable {u s s' : PagingState} {T : Nat → Prop} {ptr n : Nat}

/-- `memset(ptr, 0, n)` leaves a zero where it was. -/
theorem memset_zero_stays (h : memset 0 ptr n s = .ok ((), s')) {f w : Nat}
    (hzero : s.frames f w = 0) : s'.frames f w = 0 := by
  induction n generalizing ptr s with
  | zero =>
      cases h
      exact hzero
  | succ n ih =>
      rw [memset] at h
      obtain ⟨_, mid, hstore, hrest⟩ := bind_eq_ok h
      obtain ⟨frame, _, hmid⟩ := modify_frames hstore
      apply ih hrest
      rw [hmid, set_frames, Frames.set_apply]
      split
      · rfl
      · exact hzero

/-- A word outside of `T` does not change when zero is written over a zero. -/
theorem agrees_set (hagrees : ∀ f, ¬ T f → s.frames f = u.frames f) {frame w : Nat}
    (hword : T frame ∨ u.frames frame w = 0) :
    ∀ f, ¬ T f → (s.set frame w 0).frames f = u.frames f := by
  intro f hf
  rw [set_frames]
  funext i
  rw [Frames.set_apply]
  split
  · rename_i heq
    obtain ⟨rfl, rfl⟩ := heq
    exact (hword.resolve_left hf).symm
  · rw [hagrees f hf]

/-- The condition is enough: the words become zero and the frames outside of `T` stay. -/
theorem memset_of_zeroApart (hT : ∀ f, T f → ¬ u.frames.IsTable f)
    (hagrees : ∀ f, ¬ T f → s.frames f = u.frames f) (hptr : ptr < 4294967296)
    (h : u.frames.ZeroApart T ptr n) :
    ∃ m, memset 0 ptr n s = .ok ((), { s with frames := m }) ∧
      (∀ f, ¬ T f → m f = u.frames f) ∧
      ∀ k < n, m.read (wordAddr ptr k) = some 0 := by
  induction n generalizing ptr s with
  | zero => exact ⟨s.frames, rfl, hagrees, fun k hk => absurd hk (Nat.not_lt_zero k)⟩
  | succ n ih =>
      obtain ⟨frame, hframe, hword⟩ := h 0 (Nat.succ_pos n)
      rw [wordAddr_zero hptr] at hframe hword
      have hstore : store ptr 0 s = .ok ((), s.set frame (wordOf ptr) 0) := by
        rw [← frameOf_agrees hT hagrees (pageOf_lt hptr)] at hframe
        exact modify_run hframe _
      have hset := agrees_set hagrees hword
      have hrest : u.frames.ZeroApart T (u32 (ptr + 4)) n := by
        intro k hk
        rw [wordAddr_succ]
        exact h (k + 1) (Nat.succ_lt_succ hk)
      obtain ⟨m, hrun, hkeep, hzero⟩ := ih hset (u32_lt _) hrest
      refine ⟨m, ?_, hkeep, ?_⟩
      · rw [memset, bind_run_of_ok hstore, hrun]
        rfl
      · intro k hk
        cases k with
        | zero =>
            have hstays : m frame (wordOf ptr) = 0 :=
              memset_zero_stays hrun (Frames.set_self _ _ _ _)
            rw [wordAddr_zero hptr, Frames.read, frameOf_agrees hT hkeep (pageOf_lt hptr), hframe]
            exact congrArg some hstays
        | succ k =>
            rw [← wordAddr_succ]
            exact hzero k (Nat.lt_of_succ_lt_succ hk)

/-- The condition is necessary: a store that changes a word outside of `T` leaves it zero. -/
theorem zeroApart_of_memset (hT : ∀ f, T f → ¬ u.frames.IsTable f)
    (hagrees : ∀ f, ¬ T f → s.frames f = u.frames f) (hptr : ptr < 4294967296)
    (hrun : memset 0 ptr n s = .ok ((), s')) (hkeep : ∀ f, ¬ T f → s'.frames f = u.frames f) :
    u.frames.ZeroApart T ptr n := by
  induction n generalizing ptr s with
  | zero => exact fun k hk => absurd hk (Nat.not_lt_zero k)
  | succ n ih =>
      rw [memset] at hrun
      obtain ⟨_, mid, hstore, hrest⟩ := bind_eq_ok hrun
      obtain ⟨frame, hframe, hmid⟩ := modify_frames hstore
      rw [frameOf_agrees hT hagrees (pageOf_lt hptr)] at hframe
      have hword : T frame ∨ u.frames frame (wordOf ptr) = 0 := by
        by_contra hnot
        rw [not_or] at hnot
        have hzero : mid.frames frame (wordOf ptr) = 0 := by
          rw [hmid]
          exact Frames.set_self _ _ _ _
        have hlast := memset_zero_stays hrest hzero
        rw [hkeep frame hnot.1] at hlast
        exact hnot.2 hlast
      have hset := agrees_set hagrees hword
      have htail := ih (s := mid) (by rw [hmid]; exact hset) (u32_lt _) hrest
      intro k hk
      cases k with
      | zero =>
          rw [wordAddr_zero hptr]
          exact ⟨frame, hframe, hword⟩
      | succ k =>
          rw [← wordAddr_succ]
          exact htail k (Nat.lt_of_succ_lt_succ hk)

end Memset

/-! ## Bytes of the window -/

/-- Physical memory by bytes. -/
def PagingState.bytes (s : PagingState) : Bytes := fun x =>
  Lib.byteOf (s.frames (x / 4096) (wordOf x)) (x % 4)

theorem bytes_set {s : PagingState} {p word : Nat} (hp : p % 4 = 0) (hlt : p + 4 ≤ 4294967296) :
    (s.set (p / 4096) (wordOf p) word).bytes = Lib.writeWord p word s.bytes := by
  rw [Lib.writeWord_eq_storeWord hlt]
  funext x
  rw [Lib.storeWord_apply, PagingState.bytes, set_frames, Frames.set_apply]
  unfold wordOf
  by_cases hx : p ≤ x ∧ x < p + 4
  · rw [if_pos hx, if_pos (by omega), show x % 4 = x - p by omega]
  · rw [if_neg hx, if_neg (by omega)]
    rfl

/-- Over frames of the window that are no tables the loop does what `memset` does to bytes. -/
theorem Paged.memset_bytes {s : PagingState} {c p n : Nat} (h : Paged s.frames) (hp : p % 4 = 0)
    (hfits : p + 4 * n ≤ windowFrames * 4096)
    (hclear : ∀ f, p / 4096 ≤ f → f * 4096 < p + 4 * n → ¬ s.frames.IsTable f) :
    ∃ s', memset c (kptov p) n s = .ok ((), s') ∧ s'.bytes = Lib.memset p c n s.bytes := by
  induction n generalizing p s with
  | zero => exact ⟨s, rfl, rfl⟩
  | succ n ih =>
      have hlt : p / 4096 < windowFrames := by
        unfold windowFrames at hfits ⊢
        omega
      have hpage : pageOf (kptov p) = tablePage (p / 4096) := by
        rw [tablePage_window hlt]
        unfold windowFrames at hlt
        unfold pageOf kptov kernelPage u32
        omega
      have hword : wordOf (kptov p) = wordOf p := by
        unfold windowFrames at hlt
        unfold wordOf kptov u32
        omega
      have hstep : u32 (kptov p + 4) = kptov (p + 4) := by
        unfold kptov u32
        omega
      have hstore : store (kptov p) c s = .ok ((), s.set (p / 4096) (wordOf p) c) := by
        rw [← hword]
        exact modify_run (hpage ▸ h.frameOf_window hlt) _
      have hnot : ¬ s.frames.IsTable (p / 4096) := hclear _ (Nat.le_refl _) (by omega)
      have hpaged : Paged (s.set (p / 4096) (wordOf p) c).frames :=
        (Change.data hnot : Change (fun _ => False) _ _).paged h
      have hrest : ∀ f, (p + 4) / 4096 ≤ f → f * 4096 < p + 4 + 4 * n →
          ¬ (s.set (p / 4096) (wordOf p) c).frames.IsTable f := by
        intro f hlow hhigh
        rw [set_frames, isTable_set fun heq => hnot (.inl heq)]
        exact hclear f (by omega) (by omega)
      obtain ⟨s', hrun, hbytes⟩ := ih hpaged (by omega) (by omega) hrest
      refine ⟨s', ?_, ?_⟩
      · rw [memset, bind_run_of_ok hstore, hstep, hrun]
      · have hfirst : p + 4 ≤ 4294967296 := by
          unfold windowFrames at hfits
          omega
        rw [hbytes, bytes_set hp hfirst, Lib.memset_cons]

/-! ## The calls -/

/-- The frames that a call took between two states for its pages: those that are neither the
directory nor tables. -/
def PagingState.GivenPages (s u : PagingState) (f : Nat) : Prop :=
  f * 4096 ∈ u.returned.take (u.returned.length - s.returned.length) ∧ ¬ u.frames.IsTable f

/-- A call that has mapped its pages in state `u` returns their address, their bytes are zero,
and every frame but those of its pages holds what it held. -/
def ClearsPages (s u : PagingState) (addr bytes : Nat) (result : Except Fault (Nat × PagingState)) :
    Prop :=
  ∃ s', result = .ok (addr, s') ∧
    (∀ k < bytes / 4, s'.frames.read (wordAddr addr k) = some 0) ∧
    ∀ f, ¬ s.GivenPages u f → s'.frames f = u.frames f

/-- The frames of the first `n` free entries. -/
def PagingState.FirstFrames (s : PagingState) (n f : Nat) : Prop :=
  ∃ i ∈ s.freeEntries.take n, s.addr i / 4096 = f

/-- The page of the first free frame. -/
def PagingState.firstPage (s : PagingState) : Nat :=
  (s.freeEntries.head?.map fun i => kptov (s.addr i)).getD 0

/-- As many words as `n` pages have bytes are mapped from the page of the first free frame on, and
each lies in one of the first `n` free frames or is zero. -/
def PagingState.KernClears (s : PagingState) (n : Nat) : Prop :=
  s.frames.ZeroApart (s.FirstFrames n) s.firstPage (n * PGSIZE)

/-- The next heap page. -/
def PagingState.heapPage (s : PagingState) : Nat := (s.index s.kernelPool).toNat

/-- The words behind `n` heap pages, up to four times as many, are mapped, and each lies in one of
the first `n` free frames, or is zero and outside of the table of the heap. -/
def PagingState.HeapClears (s : PagingState) (n : Nat) : Prop :=
  ∀ k, n * 1024 ≤ k → k < n * PGSIZE →
    ∃ f, frameOf s.frames (pageOf (wordAddr (s.heapPage * PGSIZE) k)) = some f ∧
      (s.FirstFrames n f ∨ f ≠ s.frames.table 0 ∧
        s.frames f (wordOf (wordAddr (s.heapPage * PGSIZE) k)) = 0)

section Calls

variable {s u v : PagingState} {flags addr n : Nat}

/-- What follows the loop of either call: `memset` over as many words as the pages have
bytes. -/
theorem clearsPages_iff {bytes : Nat} (haddr : addr < 4294967296)
    {result : Except Fault (Nat × PagingState)}
    (hresult : result = (do memset 0 addr bytes; pure addr : PageM Nat) u) :
    ClearsPages s u addr bytes result ↔ u.frames.ZeroApart (s.GivenPages u) addr bytes := by
  have hT : ∀ f, s.GivenPages u f → ¬ u.frames.IsTable f := fun f hf => hf.2
  rw [hresult]
  constructor
  · rintro ⟨s', hrun, _, hkeep⟩
    obtain ⟨_, mid, hmemset, hpure⟩ := bind_eq_ok hrun
    cases hpure
    exact zeroApart_of_memset hT (fun _ _ => rfl) haddr hmemset hkeep
  · intro h
    obtain ⟨m, hrun, hkeep, hzero⟩ := memset_of_zeroApart hT (fun _ _ => rfl) haddr h
    refine ⟨{ u with frames := m }, ?_, ?_, hkeep⟩
    · rw [bind_run_of_ok hrun]
      rfl
    · intro k hk
      exact hzero k (by omega)

/-- The size of the pages is no more than a word holds. -/
theorem zeroPages_of_fZero (hzero : fZero flags = true) (hn : n ≤ MAX_PHYS_PAGES) :
    zeroPages flags addr n = memset 0 addr (n * PGSIZE) := by
  have hbytes : ofInt ((n : Int) * PGSIZE) = n * PGSIZE := by
    unfold MAX_PHYS_PAGES at hn
    unfold ofInt PGSIZE
    omega
  rw [zeroPages, if_pos hzero, hbytes]

/-- A call has taken the first `n` free frames, and nothing besides. -/
structure Took (s u : PagingState) (n : Nat) : Prop where
  tables : ∀ f, u.frames.IsTable f ↔ s.frames.IsTable f
  returned : u.returned = ((s.freeEntries.take n).map s.addr).reverse ++ s.returned

theorem Took.refl (s : PagingState) : Took s s 0 := ⟨fun _ => .rfl, rfl⟩

/-- One round, and those behind it. -/
theorem Took.round {j : Nat} (hj : firstFree s.physicalPageEntries = some j)
    (htables : ∀ f, v.frames.IsTable f ↔ s.frames.IsTable f)
    (hentries : v.physicalPageEntries = (s.take j).physicalPageEntries)
    (hreturned : v.returned = s.addr j :: s.returned) (h : Took v u n) : Took s u (n + 1) := by
  have hfree : v.freeEntries = (s.take j).freeEntries := by
    unfold PagingState.freeEntries
    rw [hentries]
  have haddr : ∀ i, v.addr i = s.addr i := by
    intro i
    rw [PagingState.addr, hentries]
    exact take_addr i
  refine ⟨fun f => (h.tables f).trans (htables f), ?_⟩
  rw [h.returned, hreturned, hfree, freeEntries_take hj, List.take_succ_cons, List.map_cons,
    List.reverse_cons, List.append_assoc, List.singleton_append,
    List.map_congr_left fun i _ => haddr i]

/-- The frames given are the first free ones. -/
theorem Took.givenPages (h : Took s u n) (hs : Sound s) (f : Nat) :
    s.GivenPages u f ↔ s.FirstFrames n f := by
  have htaken : u.returned.take (u.returned.length - s.returned.length) =
      ((s.freeEntries.take n).map s.addr).reverse := by
    rw [h.returned, List.length_append, Nat.add_sub_cancel]
    exact List.take_left
  have husable : ∀ i ∈ s.freeEntries.take n, s.frames.Usable (s.addr i) := fun i hi =>
    hs.usable i (mem_freeEntries.mp (List.mem_of_mem_take hi))
  rw [PagingState.GivenPages, htaken, h.tables, List.mem_reverse, List.mem_map]
  constructor
  · rintro ⟨⟨i, hi, heq⟩, -⟩
    exact ⟨i, hi, by rw [heq, Nat.mul_div_cancel _ (by decide)]⟩
  · rintro ⟨i, hi, rfl⟩
    obtain ⟨haligned, -, hnot⟩ := husable i hi
    exact ⟨⟨i, hi, (Nat.div_mul_cancel (Nat.dvd_of_mod_eq_zero haligned)).symm⟩, hnot⟩

end Calls

/-! ## `palloc_kern` -/

/-- Entries of the window are written again: no page is mapped elsewhere, and no word becomes or
ceases to be zero. -/
structure Rewritten (m m' : Frames) : Prop where
  words : ∀ f w, m' f w = 0 ↔ m f w = 0
  frameOf : ∀ page < 1048576, frameOf m' page = frameOf m page

section Kern

variable {s : PagingState} {flags n i r : Nat}

theorem ne_zero_of_present {entry : Nat} (h : present entry = true) : entry ≠ 0 := by
  rintro rfl
  exact absurd h (by decide)

theorem Paged.rewritten_mapped (h : Paged s.frames) {p : Nat} (hp : p / 4096 < windowFrames) :
    Rewritten s.frames (s.mapped (tablePage (p / 4096)) p flags).frames := by
  have hpaged : Paged (s.mapped (tablePage (p / 4096)) p flags).frames :=
    (h.change_mapped_window hp : Change (fun _ => False) _ _ ∧ _).1.paged h
  have hentry := (h.entries _ hp).1
  have hslot := h.hasTable_window hp
  constructor
  · intro f w
    rw [h.mapped_window hp, Frames.set_apply]
    split
    · rename_i heq
      rw [heq.1, heq.2]
      exact iff_of_false (ne_zero_of_present (present_mapEntry ..)) (ne_zero_of_present hentry)
    · rfl
  · intro page hpage
    by_cases heq : page = tablePage (p / 4096)
    · rw [heq, hpaged.frameOf_window hp, h.frameOf_window hp]
    · rw [Paging.frameOf, mapped_frames, h.tables.walk_mapped hslot hpage heq]
      rfl

/-- The loop of `palloc_kern`, when there are frames enough. -/
theorem Sound.pallocKernLoop_took (h : Sound s) (hn : n ≤ s.freeEntries.length) :
    ∃ u, Paging.pallocKernLoop flags n i r s =
        .ok (some (if i = 0 ∧ 0 < n then s.firstPage else r), u) ∧
      Took s u n ∧ Rewritten s.frames u.frames := by
  induction n generalizing i r s with
  | zero =>
      refine ⟨s, ?_, .refl s, fun _ _ => .rfl, fun _ _ => rfl⟩
      rw [if_neg (by omega)]
      rfl
  | succ n ih =>
      cases hfree : firstFree s.physicalPageEntries with
      | none =>
          have hempty : s.freeEntries = [] :=
            List.eq_nil_iff_forall_not_mem.mpr fun i hi =>
              firstFree_eq_none hfree i (mem_freeEntries.mp hi)
          rw [hempty] at hn
          exact absurd hn (Nat.not_succ_le_zero n)
      | some j =>
          have husable := h.usable j (firstFree_eq_some hfree)
          obtain ⟨hget, hmap, hkept⟩ := h.pallocKern_round (fun _ => False) flags hfree
          have hpage : s.firstPage = kptov (s.addr j) := by
            rw [PagingState.firstPage, freeEntries_take hfree, List.head?_cons, Option.map_some,
              Option.getD_some]
          have hlength : n ≤ ((s.take j).mapped (tablePage (s.addr j / 4096)) (s.addr j)
              flags).freeEntries.length := by
            rw [freeEntries_take hfree, List.length_cons] at hn
            exact Nat.le_of_succ_le_succ hn
          have hsame : Rewritten s.frames ((s.take j).mapped (tablePage (s.addr j / 4096))
              (s.addr j) flags).frames :=
            Paged.rewritten_mapped (s := s.take j) h.paged husable.2.1
          obtain ⟨u, hrest, htook, hrewritten⟩ :=
            ih (i := i + 1) (r := if i = 0 then kptov (s.addr j) else r) hkept.sound hlength
          refine ⟨u, ?_, htook.round hfree hkept.tables rfl rfl, fun f w => ?_, fun page hp => ?_⟩
          · rw [Paging.pallocKernLoop, bind_run_of_ok hget, if_neg husable.ne_noAddr,
              bind_run_of_ok hmap, hrest, if_neg (by omega), hpage]
            by_cases hi : i = 0
            · rw [if_pos hi, if_pos ⟨hi, Nat.succ_pos n⟩]
            · rw [if_neg hi, if_neg fun hboth => hi hboth.1]
          · exact (hrewritten.words f w).trans (hsame.words f w)
          · exact (hrewritten.frameOf page hp).trans (hsame.frameOf page hp)

theorem Rewritten.zeroApart_iff {m m' : Frames} (h : Rewritten m m') {T T' : Nat → Prop}
    (hT : ∀ f, T' f ↔ T f) {ptr n : Nat} : m'.ZeroApart T' ptr n ↔ m.ZeroApart T ptr n := by
  refine forall₂_congr fun k _ => exists_congr fun f => ?_
  have hpage : pageOf (wordAddr ptr k) < 1048576 := pageOf_lt (u32_lt _)
  rw [h.frameOf _ hpage, hT, h.words]

/-- `palloc_kern` of as many pages as there are frames for. -/
theorem Sound.pallocKern_clears_iff (h : Sound s) (hzero : fZero flags = true)
    (hn : n ≤ s.freeEntries.length) :
    ∃ addr u, Paging.pallocKernLoop flags n 0 0 s = .ok (some addr, u) ∧
      (ClearsPages s u addr (n * PGSIZE) (Paging.pallocKern n flags s) ↔ s.KernClears n) := by
  have hmax := hn.trans (length_freeEntries_le s)
  obtain ⟨u, hloop, htook, hrewritten⟩ :
      ∃ u, Paging.pallocKernLoop flags n 0 0 s = _ ∧ Took s u n ∧ Rewritten s.frames u.frames :=
    h.pallocKernLoop_took hn
  refine ⟨_, u, hloop, ?_⟩
  have hpage : s.firstPage < 4294967296 := by
    unfold PagingState.firstPage
    cases s.freeEntries.head? with
    | none =>
        rw [Option.map_none, Option.getD_none]
        decide
    | some j =>
        rw [Option.map_some, Option.getD_some]
        exact u32_lt _
  generalize haddr : (if 0 = 0 ∧ 0 < n then s.firstPage else 0) = addr at hloop
  have hlt : addr < 4294967296 := by
    rw [← haddr]
    split
    · exact hpage
    · decide
  have hresult : Paging.pallocKern n flags s =
      (do Paging.memset 0 addr (n * PGSIZE); pure addr : PageM Nat) u := by
    rw [Paging.pallocKern, Int.toNat_natCast, bind_run_of_ok hloop]
    dsimp only
    rw [zeroPages_of_fZero hzero hmax]
  rw [clearsPages_iff hlt hresult, hrewritten.zeroApart_iff (htook.givenPages h),
    PagingState.KernClears]
  by_cases hpos : 0 < n
  · rw [← haddr, if_pos ⟨rfl, hpos⟩]
  · obtain rfl : n = 0 := by omega
    rw [Nat.zero_mul]
    exact iff_of_true (fun k hk => absurd hk (Nat.not_lt_zero k))
      fun k hk => absurd hk (Nat.not_lt_zero k)

end Kern

/-! ## `palloc_heap` -/

/-- The pages from `q` on are mapped to the first free frames, through the table of the heap, and
nothing else has changed. -/
structure HeapMapped (s u : PagingState) (q n : Nat) : Prop where
  words : ∀ f w, ¬ (f = s.frames.table 0 ∧ q ≤ w ∧ w < q + n) → u.frames f w = s.frames f w
  entries : ∀ w, q ≤ w → w < q + n → u.frames (s.frames.table 0) w ≠ 0
  frameOf : ∀ page < 1048576, ¬ (q ≤ page ∧ page < q + n) →
    Paging.frameOf u.frames page = Paging.frameOf s.frames page
  own : ∀ page, q ≤ page → page < q + n →
    ∃ f, Paging.frameOf u.frames page = some f ∧ s.FirstFrames n f

section Heap

variable {s u v : PagingState} {flags n i r q p : Nat}

/-- A page of the first 4 MiB is mapped through the table of the heap. -/
theorem Sound.mapPage_first (h : Sound s) (htable : s.frames.HasTable 0) (hq : q < 1024)
    (hp : s.frames.Usable p) :
    mapPage p (q * PGSIZE) flags s = .ok ((), s.mapped q p flags) ∧ Sound (s.mapped q p flags) ∧
      ∀ f, (s.mapped q p flags).frames.IsTable f ↔ s.frames.IsTable f := by
  have hslot : slotOf q = 0 := Nat.div_eq_of_lt hq
  have hpage : pageOf (q * PGSIZE) = q := Nat.mul_div_cancel _ (by decide)
  have htable' : s.frames.HasTable (slotOf q) := hslot ▸ htable
  have hchange : Change (fun _ => True) s.frames (s.mapped q p flags).frames :=
    .entry trivial (by unfold kernelPage; omega) htable'
  have hsame : ∀ f, (s.mapped q p flags).frames.IsTable f ↔ s.frames.IsTable f :=
    fun f => isTable_set (h.paged.apart _ htable')
  have hself : q ≠ tablePage (s.frames.table (slotOf q)) := by
    rw [tablePage_window (h.paged.low _ htable')]
    unfold kernelPage
    omega
  have hmap : mapPage p (q * PGSIZE) flags s = .ok ((), s.mapped (pageOf (q * PGSIZE)) p flags) :=
    h.paged.tables.mapPage_present (Nat.mul_mod_left _ _) hp.1 (by omega) (hpage.symm ▸ htable')
      (hpage.symm ▸ hself)
  rw [hpage] at hmap
  exact ⟨hmap, h.congr (hchange.paged h.paged) rfl hsame, hsame⟩

/-- One round, and those behind it. -/
theorem HeapMapped.round {j : Nat} (h : Sound s) (htable : s.frames.HasTable 0) (hq : q < 1024)
    (hj : firstFree s.physicalPageEntries = some j)
    (hframes : v.frames = (s.mapped q (s.addr j) flags).frames)
    (hentries : v.physicalPageEntries = (s.take j).physicalPageEntries)
    (hrest : HeapMapped v u (q + 1) n) : HeapMapped s u q (n + 1) := by
  have hslot : slotOf q = 0 := Nat.div_eq_of_lt hq
  have htable' : s.frames.HasTable (slotOf q) := hslot ▸ htable
  have hset : v.frames = s.frames.set (s.frames.table 0) q
      (mapEntry (s.addr j) flags (s.frames (s.frames.table 0) q)) := by
    rw [hframes, mapped_frames, hslot, show indexOf q = q from Nat.mod_eq_of_lt hq]
  have hsame : v.frames.table 0 = s.frames.table 0 := by
    rw [hset]
    exact table_set (h.paged.apart _ htable) 0
  have husable := h.usable j (firstFree_eq_some hj)
  have hfree : v.freeEntries = (s.take j).freeEntries := by
    unfold PagingState.freeEntries
    rw [hentries]
  have haddr : ∀ i, v.addr i = s.addr i := by
    intro i
    rw [PagingState.addr, hentries]
    exact take_addr i
  have hfirst : ∀ f, v.FirstFrames n f → s.FirstFrames (n + 1) f := by
    rintro f ⟨i, hi, rfl⟩
    rw [hfree] at hi
    refine ⟨i, ?_, by rw [haddr]⟩
    rw [freeEntries_take hj, List.take_succ_cons]
    exact List.mem_cons_of_mem _ hi
  obtain ⟨hwords, hpresent, hframeOf, hown⟩ := hrest
  rw [hsame] at hwords hpresent
  refine ⟨fun f w hout => ?_, fun w hlow hhigh => ?_, fun page hpage hout => ?_,
    fun page hlow hhigh => ?_⟩
  · rw [hwords f w (by omega), hset, Frames.set_apply, if_neg (by omega)]
  · by_cases hw : w = q
    · rw [hwords _ _ (by omega), hset, hw, Frames.set_self]
      exact ne_zero_of_present (present_mapEntry ..)
    · exact hpresent w (by omega) (by omega)
  · rw [hframeOf page hpage (by omega), Paging.frameOf, hframes, mapped_frames,
      h.paged.tables.walk_mapped htable' hpage (by omega)]
    rfl
  · by_cases hq' : page = q
    · have hlt : s.addr j / 4096 < 1048576 := by
        have := husable.2.1
        unfold windowFrames at this
        omega
      refine ⟨s.addr j / 4096, ?_, j, ?_, rfl⟩
      · rw [hframeOf page (by omega) (by omega), hq', hframes,
          h.paged.tables.frameOf_mapped htable', Nat.mod_eq_of_lt hlt]
      · rw [freeEntries_take hj, List.take_succ_cons]
        exact List.mem_cons_self
    · obtain ⟨f, hf, hgiven⟩ := hown page (by omega) (by omega)
      exact ⟨f, hf, hfirst f hgiven⟩

/-- A round of `palloc_heap` on the kernel's pool has mapped page `q` to the frame of entry `j`. -/
structure HeapRound (s v : PagingState) (flags q j : Nat) : Prop where
  sound : Sound v
  frames : v.frames = (s.mapped q (s.addr j) flags).frames
  entries : v.physicalPageEntries = (s.take j).physicalPageEntries
  returned : v.returned = s.addr j :: s.returned
  isTable : ∀ f, v.frames.IsTable f ↔ s.frames.IsTable f
  hasTable : v.frames.HasTable 0
  kernelPool : v.kernelPool = s.kernelPool
  index : v.index v.kernelPool = (q + 1 : Nat)

/-- Such a round in the first 4 MiB. -/
theorem Sound.pallocHeap_round {j : Nat} (flags : Nat) (h : Sound s)
    (htable : s.frames.HasTable 0) (hindex : s.index s.kernelPool = q) (hq : q < 1024)
    (hj : firstFree s.physicalPageEntries = some j) :
    ∃ v, HeapRound s v flags q j ∧ ∀ n i r,
      Paging.pallocHeapLoop s.kernelPool flags (n + 1) i r s =
        Paging.pallocHeapLoop v.kernelPool flags n (i + 1) (if i = 0 then q * PGSIZE else r) v := by
  have husable := h.usable j (firstFree_eq_some hj)
  obtain ⟨u, hu⟩ : ∃ u, s.access s.kernelPool (s.index s.kernelPool) = u := ⟨_, rfl⟩
  have hframes : u.frames = s.frames := hu ▸ rfl
  have hentries : u.physicalPageEntries = s.physicalPageEntries := hu ▸ rfl
  have hcopied : Kept (fun _ => False) s u := h.kept hframes hentries
  have hfirst : firstFree u.physicalPageEntries = some j := hentries ▸ hj
  have haddr : u.addr j = s.addr j := by rw [PagingState.addr, hentries, PagingState.addr]
  have htake := (hcopied.sound.take (firstFree_eq_some hfirst)).1
  have hget : getNextFreePhysicalPage u = .ok (s.addr j, u.take j) :=
    haddr ▸ getNextFreePhysicalPage_run hfirst
  have hnext : nextVaddr s.kernelPool (u.take j) = .ok (q * PGSIZE, u.take j) := by
    rw [nextVaddr_run, show (u.take j).index s.kernelPool = q from hu ▸ hindex]
    have hvaddr : ofInt ((q : Int) * 4096) = q * PGSIZE := by
      unfold ofInt PGSIZE
      omega
    rw [hvaddr]
  have htable' : (u.take j).frames.HasTable 0 := by
    rw [take_frames, hframes]
    exact htable
  have husable' : (u.take j).frames.Usable (s.addr j) := by
    rw [take_frames, hframes]
    exact husable
  obtain ⟨hmap, hsound, htables⟩ :
      mapPage (s.addr j) (q * PGSIZE) flags (u.take j) = _ ∧ _ :=
    htake.mapPage_first htable' hq husable'
  obtain ⟨v, hv⟩ : ∃ v,
      ((u.take j).mapped q (s.addr j) flags).linkVirtPage s.kernelPool = v := ⟨_, rfl⟩
  have hvkept : Kept (fun _ => False) ((u.take j).mapped q (s.addr j) flags) v :=
    hsound.kept (hv ▸ rfl) (hv ▸ rfl)
  have hvframes : v.frames = (s.mapped q (s.addr j) flags).frames := by
    have hlinked : v.frames = ((u.take j).mapped q (s.addr j) flags).frames := hv ▸ rfl
    rw [hlinked, mapped_frames, take_frames, hframes, mapped_frames]
  have hvkernel : v.kernelPool = s.kernelPool := by
    rw [← hv, ← hu]
    rfl
  refine ⟨v, ⟨hvkept.sound, hvframes, ?_, ?_, fun f => ?_, ?_, hvkernel, ?_⟩, fun n i r => ?_⟩
  · have hlinked : v.physicalPageEntries = (u.take j).physicalPageEntries := hv ▸ rfl
    rw [hlinked]
    unfold PagingState.take
    dsimp only
    rw [hentries]
  · have hlinked : v.returned = u.addr j :: u.returned := hv ▸ rfl
    rw [hlinked, haddr, ← hu]
    rfl
  · rw [hvkept.tables, htables, take_frames, hframes]
  · rw [hvframes, mapped_frames, hasTable_set]
    · exact htable
    · rw [show slotOf q = 0 from Nat.div_eq_of_lt hq]
      exact h.paged.apart _ htable
  · have hkernel : ((u.take j).mapped q (s.addr j) flags).kernelPool = s.kernelPool := hu ▸ rfl
    have hbefore : ((u.take j).mapped q (s.addr j) flags).index s.kernelPool = q := hu ▸ hindex
    rw [hvkernel, ← hv, index_linkVirtPage, if_pos hkernel.symm, hbefore, Int.natCast_succ]
  · rw [Paging.pallocHeapLoop, bind_run_of_ok copyVirtPage_run, hu, bind_run_of_ok hget,
      if_neg husable.ne_noAddr, bind_run_of_ok hnext, bind_run_of_ok hmap,
      bind_run_of_ok (assign_run _), hv, hvkernel]

/-- The loop of `palloc_heap` on the kernel's pool, when there are frames enough and the pages lie
in the first 4 MiB. -/
theorem Sound.pallocHeapLoop_mapped (h : Sound s) (htable : s.frames.HasTable 0)
    (hindex : s.index s.kernelPool = q) (hfits : q + n ≤ 1024)
    (hn : n ≤ s.freeEntries.length) :
    ∃ u, Paging.pallocHeapLoop s.kernelPool flags n i r s =
        .ok (some (if i = 0 ∧ 0 < n then q * PGSIZE else r), u) ∧
      Took s u n ∧ HeapMapped s u q n := by
  induction n generalizing i r s q with
  | zero =>
      refine ⟨s, ?_, .refl s, fun _ _ _ => rfl, fun w _ _ => by omega, fun _ _ _ => rfl,
        fun page _ _ => by omega⟩
      rw [if_neg (by omega)]
      rfl
  | succ n ih =>
      cases hfree : firstFree s.physicalPageEntries with
      | none =>
          have hempty : s.freeEntries = [] :=
            List.eq_nil_iff_forall_not_mem.mpr fun i hi =>
              firstFree_eq_none hfree i (mem_freeEntries.mp hi)
          rw [hempty] at hn
          exact absurd hn (Nat.not_succ_le_zero n)
      | some j =>
          obtain ⟨v, hv, hround⟩ := h.pallocHeap_round flags htable hindex (by omega) hfree
          have hlength : n ≤ v.freeEntries.length := by
            have hsame : v.freeEntries = (s.take j).freeEntries := by
              unfold PagingState.freeEntries
              rw [hv.entries]
            rw [freeEntries_take hfree, List.length_cons] at hn
            rw [hsame]
            omega
          obtain ⟨u, hrest, htook, hmapped⟩ := ih (i := i + 1)
            (r := if i = 0 then q * PGSIZE else r) hv.sound hv.hasTable hv.index (by omega) hlength
          refine ⟨u, ?_, htook.round hfree hv.isTable hv.entries hv.returned,
            hmapped.round h htable (by omega) hfree hv.frames hv.entries⟩
          rw [hround, hrest, if_neg (by omega)]
          by_cases hi : i = 0
          · rw [if_pos hi, if_pos ⟨hi, Nat.succ_pos n⟩]
          · rw [if_neg hi, if_neg fun hboth => hi hboth.1]

/-- The words that `memset` reaches from a heap page on. -/
theorem wordAddr_heap {k : Nat} (hq : q ≤ 1024) (hk : k < 4194304) :
    pageOf (wordAddr (q * PGSIZE) k) = q + k / 1024 ∧
      wordOf (wordAddr (q * PGSIZE) k) = k % 1024 := by
  unfold wordAddr u32 pageOf wordOf PGSIZE
  omega

theorem HeapMapped.zeroApart_iff (h : Sound s) (htable : s.frames.HasTable 0)
    (hfits : s.heapPage + n ≤ 1024) (htook : Took s u n) (hmapped : HeapMapped s u s.heapPage n) :
    u.frames.ZeroApart (s.GivenPages u) (s.heapPage * PGSIZE) (n * PGSIZE) ↔ s.HeapClears n := by
  obtain ⟨hwords, hentries, hframeOf, hown⟩ := hmapped
  have hgiven := htook.givenPages h
  have hat : ∀ k < n * PGSIZE, pageOf (wordAddr (s.heapPage * PGSIZE) k) = s.heapPage + k / 1024 ∧
      wordOf (wordAddr (s.heapPage * PGSIZE) k) = k % 1024 := by
    intro k hk
    unfold PGSIZE at hk
    exact wordAddr_heap (by omega) (by omega)
  have hbehind : ∀ k, n * 1024 ≤ k → k < n * PGSIZE →
      Paging.frameOf u.frames (s.heapPage + k / 1024) =
        Paging.frameOf s.frames (s.heapPage + k / 1024) := by
    intro k hlow hk
    unfold PGSIZE at hk
    exact hframeOf _ (by omega) (by omega)
  constructor
  · intro hzero k hlow hk
    obtain ⟨f, hf, hword⟩ := hzero k hk
    obtain ⟨hpage, hindex⟩ := hat k hk
    rw [hpage, hbehind k hlow hk] at hf
    rw [hindex] at hword
    rw [hpage, hindex]
    refine ⟨f, hf, hword.imp (hgiven f).mp fun hnull => ?_⟩
    have hapart : f ≠ s.frames.table 0 := by
      rintro rfl
      -- the table of the heap would lie behind the pages, with the entry of the first of them
      have hk' : k / 1024 * 1024 + s.heapPage < n * PGSIZE := by
        unfold PGSIZE at hk ⊢
        omega
      obtain ⟨f', hf', hword'⟩ := hzero _ hk'
      obtain ⟨hpage', hindex'⟩ := hat _ hk'
      have hdiv : (k / 1024 * 1024 + s.heapPage) / 1024 = k / 1024 := by
        unfold PGSIZE at hk
        omega
      have hmod : (k / 1024 * 1024 + s.heapPage) % 1024 = s.heapPage := by
        unfold PGSIZE at hk
        omega
      rw [hpage', hdiv, hbehind k hlow hk, hf] at hf'
      obtain rfl := Option.some.inj hf'
      rw [hindex', hmod] at hword'
      rcases hword' with hin | hnull'
      · exact hin.2 ((htook.tables _).mpr (.inr ⟨0, htable, rfl⟩))
      · unfold PGSIZE at hk
        exact hentries _ (Nat.le_refl _) (by omega) hnull'
    exact ⟨hapart, (hwords f _ fun hin => hapart hin.1).symm.trans hnull⟩
  · intro hzero k hk
    obtain ⟨hpage, hindex⟩ := hat k hk
    rw [hpage, hindex]
    by_cases hlow : n * 1024 ≤ k
    · obtain ⟨f, hf, hword⟩ := hzero k hlow hk
      rw [hpage] at hf
      rw [hindex] at hword
      refine ⟨f, (hbehind k hlow hk).trans hf, hword.imp (hgiven f).mpr fun hnull => ?_⟩
      exact (hwords f _ fun hin => hnull.1 hin.1).trans hnull.2
    · obtain ⟨f, hf, hfirst⟩ := hown (s.heapPage + k / 1024) (by omega) (by omega)
      exact ⟨f, hf, .inl ((hgiven f).mpr hfirst)⟩

/-- `palloc_heap` of as many pages as there are frames for. -/
theorem Sound.pallocHeap_clears_iff (h : Sound s) (htable : s.frames.HasTable 0)
    (hzero : fZero flags = true)
    (hfits : 0 < n → 0 ≤ s.index s.kernelPool ∧ s.index s.kernelPool + n ≤ 1024)
    (hn : n ≤ s.freeEntries.length) :
    ∃ addr u, Paging.pallocHeapLoop s.kernelPool flags n 0 0 s = .ok (some addr, u) ∧
      (ClearsPages s u addr (n * PGSIZE) (Paging.pallocHeap n s.kernelPool flags s) ↔
        s.HeapClears n) := by
  have hmax := hn.trans (length_freeEntries_le s)
  have hresult : ∀ addr u, Paging.pallocHeapLoop s.kernelPool flags n 0 0 s = .ok (some addr, u) →
      Paging.pallocHeap n s.kernelPool flags s =
        (do Paging.memset 0 addr (n * PGSIZE); pure addr : PageM Nat) u := by
    intro addr u hloop
    rw [Paging.pallocHeap, Int.toNat_natCast, bind_run_of_ok hloop]
    dsimp only
    rw [zeroPages_of_fZero hzero hmax]
  by_cases hpos : 0 < n
  · obtain ⟨hindex, hlimit⟩ := hfits hpos
    have hpage : s.heapPage + n ≤ 1024 := by
      unfold PagingState.heapPage
      omega
    obtain ⟨u, hloop, htook, hmapped⟩ :
        ∃ u, Paging.pallocHeapLoop s.kernelPool flags n 0 0 s = _ ∧ _ ∧ _ :=
      h.pallocHeapLoop_mapped htable (Int.toNat_of_nonneg hindex).symm hpage hn
    rw [if_pos ⟨rfl, hpos⟩] at hloop
    refine ⟨_, u, hloop, ?_⟩
    have hlt : s.heapPage * PGSIZE < 4294967296 := by
      unfold PGSIZE
      omega
    exact (clearsPages_iff hlt (hresult _ u hloop)).trans
      (hmapped.zeroApart_iff h htable hpage htook)
  · obtain rfl : n = 0 := by omega
    refine ⟨0, s, rfl, (clearsPages_iff (by decide) (hresult 0 s rfl)).trans ?_⟩
    rw [Nat.zero_mul]
    exact iff_of_true (fun k hk => absurd hk (Nat.not_lt_zero k))
      fun k _ hk => absurd hk (by omega)

end Heap

/-! ## Runs -/

/-- `init_heap_page` gives the heap its table, and no later call takes it away. -/
theorem reach_heapTable {k : PagingRun} (run : pagingMachine.Reach (fun k c => c.KeepsTables k) k)
    (hready : k.stage = .ready) : k.state.frames.HasTable 0 := by
  induction run with
  | start h =>
      rw [h.1] at hready
      cases hready
  | @step k k' c run ok h ih =>
      have hnext := h.stage
      rw [hready] at hnext
      have hsound : k.stage = .booted ∨ Sound k.state :=
        (reach_sound (run.mono fun _ _ h => h.1)).imp And.left And.right
      have hrun := h.returns
      cases c <;> cases hstage : k.stage <;> rw [hstage] at hnext hsound <;>
        simp only [Call.next, reduceCtorEq, Option.some.injEq] at hnext
      case initKernelHeap.pooled =>
        obtain ⟨-, f, hf, -⟩ := (hsound.resolve_left Stage.noConfusion).initHeapPage_page hrun
        exact hasTable_of_frameOf (by decide) hf
      case getNextFreePhysicalPage.ready =>
        obtain ⟨p, mid, hget, hpure⟩ := bind_eq_ok hrun
        cases hpure
        have hs := hsound.resolve_left Stage.noConfusion
        exact (hs.getNextFree hget : Kept (fun _ => False) _ _).changes.hasTable hs.paged
          (ih hstage)
      case pallocKern.ready numPages flags =>
        obtain ⟨r, mid, hkern, hpure⟩ := bind_eq_ok hrun
        cases hpure
        have hs := hsound.resolve_left Stage.noConfusion
        exact (hs.pallocKern ok.1 hkern : Kept (fun _ => False) _ _).changes.hasTable hs.paged
          (ih hstage)
      case pallocHeap.ready numPages memPool flags =>
        obtain ⟨r, mid, hheap, hpure⟩ := bind_eq_ok hrun
        cases hpure
        have hs := hsound.resolve_left Stage.noConfusion
        exact (hs.pallocHeap_apart ok.1.1 ok.1.2 hheap).changes.hasTable hs.paged (ih hstage)

/-- `memset` and `memcpy` do what is meant exactly where the bytes behind the range are already
as they leave them. A call with `F_ZERO`, which finds frames enough, clears its pages and nothing
else exactly where the words that it reaches behind them are mapped, and lie in the frames of its
own or are zero. -/
theorem memory_functions_work_in_bytes_iff (dest c n : Nat) (m : Bytes) :
    (Lib.memset dest c n m = Lib.setBytes dest c n m ↔ Lib.MemsetFits dest c n m) ∧
    (∀ source, Lib.DisjointRanges dest source n →
      (Lib.memcpy dest source n m = Lib.copyBytes dest source n m ↔
        Lib.MemcpyFits dest source n m)) ∧
    ∀ (k : PagingRun) (flags : Nat), pagingMachine.Reach (fun k c => c.KeepsTables k) k →
      fZero flags = true → n ≤ k.state.freeEntries.length →
        (k.stage ≠ .booted → ∃ addr u,
          pallocKernLoop flags n 0 0 k.state = .ok (some addr, u) ∧
            (ClearsPages k.state u addr (n * PGSIZE) (pallocKern n flags k.state) ↔
              k.state.KernClears n)) ∧
        (k.stage = .ready → (Call.pallocHeap n k.state.kernelPool flags).InPool k → ∃ addr u,
          pallocHeapLoop k.state.kernelPool flags n 0 0 k.state = .ok (some addr, u) ∧
            (ClearsPages k.state u addr (n * PGSIZE)
              (pallocHeap n k.state.kernelPool flags k.state) ↔ k.state.HeapClears n)) := by
  refine ⟨Lib.memset_eq_iff .., fun _ => Lib.memcpy_eq_iff, ?_⟩
  intro k flags run hzero hn
  have hsound : k.stage ≠ .booted → Sound k.state := fun hstage =>
    ((reach_sound (run.mono fun _ _ h => h.1)).resolve_left fun h => hstage h.1).2
  refine ⟨fun hstage => (hsound hstage).pallocKern_clears_iff hzero hn, fun hready hpool => ?_⟩
  have hs := hsound (by rw [hready]; exact nofun)
  refine hs.pallocHeap_clears_iff (reach_heapTable run hready) hzero (fun hpos => ?_) hn
  obtain ⟨hindex, hlimit⟩ := hpool (by omega)
  omega

/-- Where memory is zero, clearing it is exact, and so is a call for a page after
`setupAvailablePages` exactly where the words behind its own are mapped and zero. -/
theorem memory_functions_work_in_bytes_after_setup : ∃ (k : PagingRun) (addr : Nat)
    (u : PagingState), k.state.addr 33 = 0x200000 ∧
    Lib.memset 4294967294 0 8 (fun _ => 0) = Lib.setBytes 4294967294 0 8 (fun _ => 0) ∧
    pallocKernLoop 2 1 0 0 k.state = .ok (some addr, u) ∧
    (ClearsPages k.state u addr (1 * PGSIZE) (pallocKern (1 : Nat) 2 k.state) ↔
      k.state.KernClears 1) := by
  obtain ⟨s, hrun, hfree, haddr, -⟩ := setup_scattered
  have hreach : pagingMachine.Reach (fun k c => c.KeepsTables k) ⟨s, .available, scatteredMap⟩ :=
    reach_setup usableMap_scattered ⟨tablesFit_scattered, trivial⟩ hrun
  have hlength : 1 ≤ s.freeEntries.length :=
    List.length_pos_of_mem (mem_freeEntries.mpr ((hfree 33).mpr (.inl rfl)))
  obtain ⟨hmemset, -, -⟩ := memory_functions_work_in_bytes_iff 4294967294 0 8 fun _ => 0
  obtain ⟨-, -, hcalls⟩ := memory_functions_work_in_bytes_iff 0 0 1 fun _ => 0
  obtain ⟨addr, u, hloop, hclears⟩ :=
    (hcalls ⟨s, .available, scatteredMap⟩ 2 hreach (by decide) hlength).1 nofun
  refine ⟨_, addr, u, haddr, ?_, hloop, hclears⟩
  have hbyte (k : Nat) : Lib.byteOf 0 k = 0 := by
    rw [Lib.byteOf, Nat.zero_div]
    rfl
  rw [hmemset]
  intro k _ _
  split
  · rw [hbyte, hbyte]
  · exact (hbyte _).symm

/-- One byte is to be cleared in a memory of ones, and three more are. -/
theorem memset_clears_more : ¬ ∀ (str c n : Nat) (m : Bytes),
    Lib.memset str c n m = Lib.setBytes str c n m := by
  intro h
  have hbyte := congrFun (h 0 0 1 fun _ => 1) 1
  exact absurd hbyte (by decide)

end NickOS3.Paging
