import NickOS3.Paging.Runs

/-!
# Setting up `base_pd`

`memset` and `memcpy` over pages whose translation the stores cannot change, and the state
that `setupAvailablePages` returns in when the frame of `base_pd` lies in the window.
-/

namespace NickOS3.Paging

open Foundation Program

/-- A page translates to `frame` whatever the frames of `R` hold. -/
def Frames.Steady (m : Frames) (R : Nat → Prop) (page frame : Nat) : Prop :=
  ∀ m', (∀ f, ¬ R f → m' f = m f) → frameOf m' page = some frame

section Stores

variable {s : PagingState} {R : Nat → Prop} {F G : Nat → Nat} {c dest source n : Nat}

theorem Frames.Steady.set {m : Frames} {page frame g i word : Nat} (h : m.Steady R page frame)
    (hg : R g) : (m.set g i word).Steady R page frame := by
  intro m' hm'
  refine h m' fun f hf => ?_
  have hne : f ≠ g := fun heq => hf (heq ▸ hg)
  rw [hm' f hf]
  exact Function.update_of_ne hne _ _

theorem Frames.Steady.congr {m m' : Frames} {page frame : Nat} (h : m.Steady R page frame)
    (hm : ∀ f, ¬ R f → m' f = m f) : m'.Steady R page frame :=
  fun m'' hm'' => h m'' fun f hf => (hm'' f hf).trans (hm f hf)

theorem Frames.Steady.modify_run (h : s.frames.Steady R (pageOf dest) (F 0)) (f : Nat → Nat) :
    modify dest f s
      = .ok ((), s.set (F 0) (wordOf dest) (f (s.frames (F 0) (wordOf dest)))) :=
  Paging.modify_run (h _ fun _ _ => rfl) f

/-- A translation does not depend on frames that are no tables. -/
theorem steady_of_not_isTable {m : Frames} {page frame : Nat} (hpage : page < 1048576)
    (hframe : frameOf m page = some frame) (hR : ∀ f, R f → ¬ m.IsTable f) :
    m.Steady R page frame := by
  intro m' hm'
  have hslot := hasTable_of_frameOf hpage hframe
  have hkeep : ∀ f, m.IsTable f → m' f = m f := fun f hf => hm' f fun hin => hR f hin hf
  rw [← hframe, frameOf, frameOf]
  refine congrArg _ (walk_congr (by rw [hkeep _ (.inl rfl)]) fun _ => ?_)
  have htable : m' (baseAddr (m directoryFrame (slotOf page)))
      = m (baseAddr (m directoryFrame (slotOf page))) := hkeep _ (.inr ⟨_, hslot, rfl⟩)
  rw [htable]

/-- The words from `dest` on lie in frames of `R`, at pages that translate to them anyway. -/
def PagingState.Writable (s : PagingState) (R : Nat → Prop) (F : Nat → Nat) (dest n : Nat) : Prop :=
  dest + 4 * n ≤ 4294967296 ∧
    ∀ k < n, R (F k) ∧ s.frames.Steady R (pageOf (dest + 4 * k)) (F k)

theorem PagingState.Writable.next (h : s.Writable R F dest (n + 1)) (hn : 0 < n) {word : Nat} :
    u32 (dest + 4) = dest + 4 ∧
      (s.set (F 0) (wordOf dest) word).Writable R (fun k => F (k + 1)) (dest + 4) n := by
  obtain ⟨hle, hframes⟩ := h
  refine ⟨u32_of_lt (by omega), by omega, ?_⟩
  intro k hk
  obtain ⟨hR, hsteady⟩ := hframes (k + 1) (by omega)
  refine ⟨hR, ?_⟩
  rw [show dest + 4 + 4 * k = dest + 4 * (k + 1) by omega]
  exact hsteady.set (hframes 0 (by omega)).1

theorem memset_run (h : s.Writable R F dest n) :
    ∃ m, memset c dest n s = .ok ((), { s with frames := m }) ∧ ∀ f, ¬ R f → m f = s.frames f := by
  induction n generalizing dest s F with
  | zero => exact ⟨s.frames, rfl, fun _ _ => rfl⟩
  | succ n ih =>
      obtain ⟨hR, hsteady⟩ := h.2 0 (by omega)
      have hrun : store dest c s = .ok ((), s.set (F 0) (wordOf dest) c) :=
        hsteady.modify_run fun _ => c
      have hset : ∀ f, ¬ R f → (s.set (F 0) (wordOf dest) c).frames f = s.frames f := by
        intro f hf
        have hne : f ≠ F 0 := fun heq => hf (heq ▸ hR)
        exact Function.update_of_ne hne _ _
      rw [memset, Program.bind_run_of_ok hrun]
      by_cases hn : 0 < n
      · obtain ⟨hu32, hnext⟩ := h.next hn
        obtain ⟨m, hrest, hsame⟩ := ih hnext
        rw [hu32, hrest]
        exact ⟨m, rfl, fun f hf => (hsame f hf).trans (hset f hf)⟩
      · obtain rfl : n = 0 := by omega
        exact ⟨_, rfl, hset⟩

/-- No word is written twice. -/
def Injective (F : Nat → Nat) (dest n : Nat) : Prop :=
  ∀ k < n, ∀ k' < n, F k = F k' → wordOf (dest + 4 * k) = wordOf (dest + 4 * k') → k = k'

theorem memcpy_run (h : s.Writable R F dest n) (hle : source + 4 * n ≤ 4294967296)
    (hsource : ∀ k < n, ¬ R (G k) ∧ s.frames.Steady R (pageOf (source + 4 * k)) (G k))
    (hinj : Injective F dest n) :
    ∃ m, memcpy dest source n s = .ok ((), { s with frames := m }) ∧
      (∀ f i, (∀ k < n, F k = f → wordOf (dest + 4 * k) ≠ i) → m f i = s.frames f i) ∧
      ∀ k < n, m (F k) (wordOf (dest + 4 * k)) = s.frames (G k) (wordOf (source + 4 * k)) := by
  induction n generalizing dest source s F G with
  | zero => exact ⟨s.frames, rfl, fun _ _ _ => rfl, fun k hk => absurd hk (Nat.not_lt_zero k)⟩
  | succ n ih =>
      obtain ⟨hR, hsteady⟩ := h.2 0 (by omega)
      obtain ⟨_, hsteady'⟩ := hsource 0 (by omega)
      rw [Nat.mul_zero, Nat.add_zero] at hsteady hsteady'
      generalize hword : s.frames (G 0) (wordOf source) = word
      have hload : load source s = .ok (word, s) := by
        rw [load_run (hsteady' _ fun _ _ => rfl), hword]
      have hrun : store dest word s = .ok ((), s.set (F 0) (wordOf dest) word) :=
        hsteady.modify_run fun _ => word
      have hset : ∀ f i, (F 0 = f → wordOf dest ≠ i) →
          (s.set (F 0) (wordOf dest) word).frames f i = s.frames f i := by
        intro f i hne
        rw [set_frames, Frames.set_apply, if_neg fun heq => hne heq.1.symm heq.2.symm]
      have hfirst : (s.set (F 0) (wordOf dest) word).frames (F 0) (wordOf dest) = word :=
        Frames.set_self ..
      rw [memcpy, Program.bind_run_of_ok hload, Program.bind_run_of_ok hrun]
      by_cases hn : 0 < n
      · obtain ⟨hu32, hnext⟩ := @PagingState.Writable.next _ _ _ _ _ h hn word
        have hshift : ∀ a k, a + 4 * (k + 1) = a + 4 + 4 * k := fun a k => by omega
        have hsource' : ∀ k < n, ¬ R (G (k + 1)) ∧
            (s.set (F 0) (wordOf dest) word).frames.Steady R (pageOf (source + 4 + 4 * k))
              (G (k + 1)) := by
          intro k hk
          obtain ⟨hG, hpage⟩ := hsource (k + 1) (by omega)
          rw [← hshift]
          exact ⟨hG, hpage.set hR⟩
        have hinj' : Injective (fun k => F (k + 1)) (dest + 4) n := by
          intro k hk k' hk' hF hw
          rw [← hshift, ← hshift] at hw
          have := hinj (k + 1) (by omega) (k' + 1) (by omega) hF hw
          omega
        obtain ⟨m, hrest, hsame, hwords⟩ := ih hnext (by omega) hsource' hinj'
        rw [hu32, u32_of_lt (show source + 4 < 4294967296 by omega), hrest]
        refine ⟨m, rfl, ?_, ?_⟩
        · intro f i hne
          rw [hsame f i, hset f i (hne 0 (by omega))]
          intro k hk hF
          rw [← hshift]
          exact hne (k + 1) (by omega) hF
        · intro k hk
          cases k with
          | zero =>
              rw [Nat.mul_zero, Nat.add_zero, Nat.add_zero, hsame, hfirst, hword]
              intro k hk hF hw
              rw [← hshift] at hw
              have := hinj (k + 1) (by omega) 0 (by omega) hF hw
              omega
          | succ k =>
              have hcopied := hwords k (by omega)
              rw [← hshift, ← hshift] at hcopied
              rw [hcopied]
              refine hset _ _ fun hF => ?_
              exact absurd (hF ▸ hR) (hsource (k + 1) hk).1
      · obtain rfl : n = 0 := by omega
        refine ⟨_, rfl, ?_, ?_⟩
        · intro f i hne
          exact hset f i (hne 0 (by omega))
        · intro k hk
          obtain rfl : k = 0 := by omega
          rw [Nat.mul_zero, Nat.add_zero, Nat.add_zero, hword]
          exact hfirst

end Stores

section Setup

variable {s u : PagingState} {f₀ j : Nat}

/-- The translation of a page of the window reads two frames. -/
theorem Paged.steady {m : Frames} (h : Paged m) {R : Nat → Prop} {f : Nat} (hf : f < windowFrames)
    (hdirectory : ¬ R directoryFrame) (htable : ¬ R (windowTable f)) :
    m.Steady R (tablePage f) f := by
  intro m' hm'
  rw [← h.frameOf_window hf, frameOf, frameOf]
  refine congrArg _ (walk_congr (by rw [hm' _ hdirectory]) fun _ => ?_)
  have hbase : baseAddr (m directoryFrame (slotOf (tablePage f))) = windowTable f :=
    h.table_window hf
  rw [hbase, hm' _ htable]

/-- The frames that `memset` clears for `base_pd`: four of them, from its own on. -/
def Cleared (f₀ f : Nat) : Prop := f₀ ≤ f ∧ f ≤ f₀ + 3

/-- None of the frames is the directory, one of those behind it that are copied with it, or a
table through which they are reached. -/
def BasePdFits (f₀ : Nat) : Prop :=
  f₀ + 3 < windowFrames ∧ ∀ f, Cleared f₀ f → ¬ (6 ≤ f ∧ f ≤ 9) ∧ f ≠ 0x1400 ∧
    f ≠ windowTable f₀ ∧ f ≠ windowTable (f₀ + 3)

/-- The address of word `k` from a frame of the window on. -/
theorem kptov_word {k : Nat} (hf : f₀ + 3 < windowFrames) (hk : k < 4096) :
    pageOf (kptov (f₀ * 4096) + 4 * k) = tablePage (f₀ + k / 1024) ∧
      wordOf (kptov (f₀ * 4096) + 4 * k) = k % 1024 := by
  rw [tablePage_window (by omega)]
  unfold windowFrames at hf
  unfold pageOf wordOf kptov kernelPage u32
  omega

/-- The state `palloc_kern` clears the frames of `base_pd` in. -/
def PagingState.basePdMapped (u : PagingState) (j f₀ : Nat) : PagingState :=
  (u.take j).mapped (tablePage f₀) (f₀ * 4096) 6

theorem Paged.change_basePdMapped (h : Paged u.frames) (hlt : f₀ < windowFrames)
    {heap : Nat → Prop} : Change heap u.frames (u.basePdMapped j f₀).frames ∧
      ∀ f, (u.basePdMapped j f₀).frames.IsTable f ↔ u.frames.IsTable f := by
  have hdiv : f₀ * 4096 / 4096 = f₀ := Nat.mul_div_cancel _ (by decide)
  have htake : Paged (u.take j).frames := h
  have hchange : Change heap (u.take j).frames
      ((u.take j).mapped (tablePage (f₀ * 4096 / 4096)) (f₀ * 4096) 6).frames ∧ _ :=
    htake.change_mapped_window (by omega)
  rw [hdiv] at hchange
  exact hchange

/-- It changes one table of the window. -/
theorem Paged.basePdMapped_other (h : Paged u.frames) (hlt : f₀ < windowFrames) {f : Nat}
    (hf : f ≠ windowTable f₀) : (u.basePdMapped j f₀).frames f = u.frames f := by
  have hdiv : f₀ * 4096 / 4096 = f₀ := Nat.mul_div_cancel _ (by decide)
  have htake : Paged (u.take j).frames := h
  have hset : ((u.take j).mapped (tablePage (f₀ * 4096 / 4096)) (f₀ * 4096) 6).frames = _ :=
    htake.mapped_window (by omega)
  rw [hdiv] at hset
  rw [PagingState.basePdMapped, hset]
  exact Function.update_of_ne hf _ _

theorem Paged.basePdMapped (h : Paged u.frames) (hlt : f₀ < windowFrames) :
    Paged (u.basePdMapped j f₀).frames := by
  obtain ⟨hchange, _⟩ : Change (fun _ => False) u.frames (u.basePdMapped j f₀).frames ∧ _ :=
    h.change_basePdMapped hlt
  exact hchange.paged h

/-- The words of the four frames can be written, and stay where they are. -/
theorem Paged.writable (h : Paged s.frames) (hfits : BasePdFits f₀) {n : Nat} (hn : n = 4096) :
    s.Writable (Cleared f₀) (fun k => f₀ + k / 1024) (kptov (f₀ * 4096)) n := by
  obtain ⟨hlt, hclear⟩ := hfits
  constructor
  · unfold windowFrames at hlt
    unfold kptov u32
    omega
  · intro k hk
    have hin : Cleared f₀ (f₀ + k / 1024) := by
      unfold Cleared
      omega
    refine ⟨hin, ?_⟩
    rw [(kptov_word hlt (by omega)).1]
    apply h.steady (by omega)
    · exact fun hdirectory => (hclear 6 hdirectory).1 (by omega)
    · intro htable
      obtain ⟨_, _, hfirst, hlast⟩ := hclear _ htable
      unfold windowTable at hfirst hlast
      omega

theorem injective_words (hlt : f₀ + 3 < windowFrames) {n : Nat} (hn : n = 4096) :
    Injective (fun k => f₀ + k / 1024) (kptov (f₀ * 4096)) n := by
  intro k hk k' hk' hF hw
  rw [(kptov_word hlt (by omega)).2, (kptov_word hlt (by omega)).2] at hw
  dsimp only at hF
  omega

/-- The directory and the three frames behind it can be read meanwhile. -/
theorem Paged.source (h : Paged s.frames) (hfits : BasePdFits f₀) {n : Nat} (hn : n = 4096) :
    ∀ k < n, ¬ Cleared f₀ (6 + k / 1024) ∧
      s.frames.Steady (Cleared f₀) (pageOf (kernelPd + 4 * k)) (6 + k / 1024) := by
  intro k hk
  have hword := (@kptov_word 6 k (by decide) (by omega)).1
  have hbase : kptov (6 * 4096) = kernelPd := by decide
  rw [hbase] at hword
  rw [hword]
  refine ⟨fun hin => (hfits.2 _ hin).1 (by omega), h.steady ?_ ?_ ?_⟩
  · unfold windowFrames
    omega
  · exact fun hdirectory => (hfits.2 6 hdirectory).1 (by omega)
  · intro htable
    have hzero : windowTable (6 + k / 1024) = 0x1400 := by
      unfold windowTable
      omega
    rw [hzero] at htable
    exact (hfits.2 _ htable).2.1 rfl

/-- `base_pd` in a frame of the window. -/
theorem Paged.setupBasePd_run (h : Paged u.frames) (hj : firstFree u.physicalPageEntries = some j)
    (haddr : u.addr j = f₀ * 4096) (hfits : BasePdFits f₀) :
    ∃ s', setupBasePd u = .ok ((), s') ∧
      (∀ f, ¬ Cleared f₀ f → s'.frames f = (u.basePdMapped j f₀).frames f) ∧
      (∀ k < 4096, s'.frames (f₀ + k / 1024) (k % 1024)
        = (u.basePdMapped j f₀).frames (6 + k / 1024) (k % 1024)) ∧
      s'.returned = f₀ * 4096 :: u.returned ∧
      s'.physicalPageEntries = (u.take j).physicalPageEntries := by
  have hlt : f₀ < windowFrames := by
    have := hfits.1
    omega
  have hdiv : f₀ * 4096 / 4096 = f₀ := Nat.mul_div_cancel _ (by decide)
  have hnext : getNextFreePhysicalPage u = .ok (f₀ * 4096, u.take j) := by
    rw [getNextFreePhysicalPage_run hj, ← haddr]
    rfl
  have hself : f₀ ≠ windowTable f₀ := by
    have hin : Cleared f₀ f₀ := by
      unfold Cleared
      omega
    exact (hfits.2 f₀ hin).2.2.1
  have htake : Paged (u.take j).frames := h
  have hmap : mapPage (f₀ * 4096) (kptov (f₀ * 4096)) 6 (u.take j)
      = .ok ((), u.basePdMapped j f₀) := by
    have hmap' : mapPage (f₀ * 4096) (kptov (f₀ * 4096)) 6 (u.take j) = .ok ((), _) :=
      htake.mapPage_window (Nat.mul_mod_left _ _) (by omega) (by rw [hdiv]; exact hself)
    rw [hdiv] at hmap'
    exact hmap'
  generalize hv : u.basePdMapped j f₀ = v at hmap
  have hpaged : Paged v.frames := hv ▸ h.basePdMapped hlt
  obtain ⟨n, hn⟩ : ∃ n, n = 4096 := ⟨_, rfl⟩
  obtain ⟨m, hmemset, hcleared⟩ := memset_run (c := 0) (hpaged.writable hfits hn)
  generalize hw : ({ v with frames := m } : PagingState) = w at hmemset
  have hframes : ∀ f, ¬ Cleared f₀ f → w.frames f = v.frames f := hw ▸ hcleared
  have hkern : pallocKern 1 6 u = .ok (kptov (f₀ * 4096), w) := by
    have hne : f₀ * 4096 ≠ NO_ADDR := by
      unfold NO_ADDR
      omega
    have hloop : pallocKernLoop 6 1 0 0 u = .ok (some (kptov (f₀ * 4096)), v) := by
      rw [pallocKernLoop, Program.bind_run_of_ok hnext, if_neg hne, Program.bind_run_of_ok hmap,
        pallocKernLoop, if_pos rfl, Program.pure_run]
    have hcount : ofInt (1 * PGSIZE) = n := hn ▸ by decide
    have hzero : zeroPages 6 (kptov (f₀ * 4096)) 1 v = .ok ((), w) := by
      unfold zeroPages
      rw [if_pos (by decide), hcount]
      exact hmemset
    rw [pallocKern, show (1 : Int).toNat = 1 by decide, Program.bind_run_of_ok hloop]
    dsimp only
    rw [Program.bind_run_of_ok hzero, Program.pure_run]
  generalize hx : ({ w with basePd := kptov (f₀ * 4096) } : PagingState) = x
  have hxframes : x.frames = w.frames := hx ▸ rfl
  have hwritable : x.Writable (Cleared f₀) (fun k => f₀ + k / 1024) (kptov (f₀ * 4096)) n := by
    obtain ⟨hle, hwords⟩ := hpaged.writable hfits hn
    refine ⟨hle, fun k hk => ⟨(hwords k hk).1, ?_⟩⟩
    rw [hxframes]
    exact (hwords k hk).2.congr hframes
  have hsource : ∀ k < n, ¬ Cleared f₀ (6 + k / 1024) ∧
      x.frames.Steady (Cleared f₀) (pageOf (kernelPd + 4 * k)) (6 + k / 1024) := by
    intro k hk
    obtain ⟨hnot, hsteady⟩ := hpaged.source hfits hn k hk
    rw [hxframes]
    exact ⟨hnot, hsteady.congr hframes⟩
  obtain ⟨m', hmemcpy, hsame, hwords⟩ := memcpy_run hwritable (hn ▸ by decide) hsource
    (injective_words hfits.1 hn)
  refine ⟨{ x with frames := m' }, ?_, ?_, ?_, ?_, ?_⟩
  · have hassign : assign (fun s => { s with basePd := kptov (f₀ * 4096) }) w = .ok ((), x) := by
      rw [assign_run, ← hx]
    rw [setupBasePd, Program.bind_run_of_ok hkern, Program.bind_run_of_ok hassign,
      show PGSIZE = n from hn.symm, hmemcpy]
  · intro f hf
    have hout : m' f = x.frames f := by
      funext i
      refine hsame f i fun k hk hF => absurd ?_ hf
      rw [← hF]
      exact ((hpaged.writable hfits hn).2 k hk).1
    rw [← hframes f hf, ← hxframes]
    exact hout
  · intro k hk
    have hword := hwords k (hn ▸ hk)
    rw [(kptov_word hfits.1 hk).2, hxframes, hframes _ (hsource k (hn ▸ hk)).1] at hword
    have hkernel := (@kptov_word 6 k (by decide) hk).2
    have hbase : kptov (6 * 4096) = kernelPd := by decide
    rw [hbase] at hkernel
    rw [hkernel] at hword
    exact hword
  · have hreturned : x.returned = v.returned := by
      rw [← hx, ← hw]
    change x.returned = _
    rw [hreturned, ← hv, ← haddr]
    rfl
  · have hentries : x.physicalPageEntries = v.physicalPageEntries := by
      rw [← hx, ← hw]
    change x.physicalPageEntries = _
    rw [hentries, ← hv]
    rfl

/-- `setupAvailablePages` with a map whose first page that is not reserved has room for
`base_pd`. -/
theorem AtBoot.setup_run (h : AtBoot s) (regions : List MemoryMapEntry) (r : MemoryMapEntry)
    (x : Nat) (hpage : pageAt regions 32 = some (r, x))
    (haddr : u32 (r.base + x * 4096) = f₀ * 4096) (hfits : BasePdFits f₀) :
    ∃ u s', Prepared regions s u ∧ setupAvailablePages regions s = .ok ((), s') ∧
      (∀ f, ¬ Cleared f₀ f → s'.frames f = (u.basePdMapped 32 f₀).frames f) ∧
      (∀ k < 4096, s'.frames (f₀ + k / 1024) (k % 1024)
        = (u.basePdMapped 32 f₀).frames (6 + k / 1024) (k % 1024)) ∧
      s'.returned = [f₀ * 4096] ∧
      s'.physicalPageEntries = (u.take 32).physicalPageEntries := by
  obtain ⟨u, heq, hprepared⟩ := h.prepared regions
  have hfree := hprepared.free_of_page (by decide) (by decide) hpage
  have hfirst : firstFree u.physicalPageEntries = some 32 :=
    firstFree_of_least hfree fun j hj => hprepared.least hj
  have haddr' : u.addr 32 = f₀ * 4096 := by
    obtain ⟨_, r', x', hpage', haddr'⟩ := hprepared.free 32 hfree
    rw [hpage] at hpage'
    cases hpage'
    exact haddr'.trans haddr
  obtain ⟨s', hrun, hsame, hwords, hreturned, hentries⟩ :=
    hprepared.paged.setupBasePd_run hfirst haddr' hfits
  refine ⟨u, s', hprepared, heq.trans hrun, hsame, hwords, ?_, hentries⟩
  rw [hreturned, hprepared.returned]

end Setup

/-! ## Runs on given memory maps -/

/-- The kernel at the start, over memory without any content. -/
def blankBoot : PagingState where
  frames := bootMemory fun _ _ => 0
  physicalPageEntries := fun _ => ⟨.unset, 0⟩
  pagecount := 0
  basePd := 0
  pools := fun _ => ⟨0, 0, fun _ => ⟨.unset, 0, .null, .null⟩⟩
  kernelPool := 0
  returned := []
  installed := []
  accessed := []
  advanced := []

theorem atBoot_blankBoot : AtBoot blankBoot where
  frames := ⟨fun _ _ => 0, by simp only [blankBoot]⟩
  entries := by simp only [blankBoot]
  returned := by simp only [blankBoot]
  installed := by simp only [blankBoot]

/-- The state after `setupAvailablePages` is reached by every guard that lets it pass. -/
theorem AtBoot.reach_setup {s s' : PagingState} (h : AtBoot s)
    {allowed : PagingRun → Call → Prop} {regions : List MemoryMapEntry} (hmap : UsableMap regions)
    (hallowed : allowed ⟨s, .booted, []⟩ (.setupAvailablePages regions))
    (hrun : setupAvailablePages regions s = .ok ((), s')) :
    pagingMachine.Reach allowed ⟨s', .available, regions⟩ := by
  have hstart : pagingMachine.start ⟨s, .booted, []⟩ := ⟨rfl, rfl, h⟩
  refine .step (.start hstart) hallowed ⟨?_, rfl, hrun, rfl⟩
  intro regions' heq
  cases heq
  exact hmap

theorem reach_setup {allowed : PagingRun → Call → Prop} {regions : List MemoryMapEntry}
    {s' : PagingState} (hmap : UsableMap regions)
    (hallowed : allowed ⟨blankBoot, .booted, []⟩ (.setupAvailablePages regions))
    (hrun : setupAvailablePages regions blankBoot = .ok ((), s')) :
    pagingMachine.Reach allowed ⟨s', .available, regions⟩ :=
  atBoot_blankBoot.reach_setup hmap hallowed hrun

/-- One region, the second MiB. -/
def plainMap : List MemoryMapEntry := [⟨0x100000, 0x100000⟩]

theorem usableMap_plain : UsableMap plainMap where
  count := by decide
  fits := by decide
  disjoint := by decide

/-- Entry `n` of the table names page `n` of the region. -/
theorem pageAt_plain {n x : Nat} {r : MemoryMapEntry} (h : pageAt plainMap n = some (r, x)) :
    r.base = 0x100000 ∧ x = n ∧ n < 256 := by
  have hcount : (⟨0x100000, 0x100000⟩ : MemoryMapEntry).maxPages.toNat = 256 := by decide
  rw [plainMap, pageAt, hcount, pageAt] at h
  split at h
  · rename_i hlt
    cases h
    exact ⟨rfl, rfl, hlt⟩
  · cases h

/-- Entry 32 of the table names this frame when the first region starts at 1 MiB. -/
theorem basePdFits_plain : BasePdFits 0x120 := by
  refine ⟨by decide, ?_⟩
  intro f hf
  unfold Cleared at hf
  unfold windowTable
  omega

theorem setup_plain : ∃ u s', Prepared plainMap blankBoot u ∧
    setupAvailablePages plainMap blankBoot = .ok ((), s') ∧ s'.returned = [0x120000] := by
  obtain ⟨u, s', hprepared, hrun, _, _, hreturned, _⟩ :=
    atBoot_blankBoot.setup_run plainMap ⟨0x100000, 0x100000⟩ 32 (by decide) (by decide)
      basePdFits_plain
  exact ⟨u, s', hprepared, hrun, hreturned⟩

end NickOS3.Paging
