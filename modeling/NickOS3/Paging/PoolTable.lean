import NickOS3.Paging.BasePd

/-!
# The table of a heap pool

What calls of `palloc_heap` do to the pools, and to the table of one that `init_heap_page` has
set up.
-/

namespace NickOS3.Paging

open Foundation Program

/-- A statement about the pools that survives the rounds of `palloc_heap` on a pool. -/
structure PoolStable (memPool : Nat) (J : PagingState → Prop) : Prop where
  frames : ∀ s s', s'.pools = s.pools → s'.kernelPool = s.kernelPool →
    s'.accessed = s.accessed → s'.advanced = s.advanced → J s → J s'
  access : ∀ s, J s → J (s.access s.kernelPool (s.index s.kernelPool))
  link : ∀ s, J s → J (s.linkVirtPage memPool)

namespace PoolStable

variable {memPool : Nat} {J : PagingState → Prop} (h : PoolStable memPool J)

include h

theorem stable : Stable J where
  set s _ _ _ hs := h.frames s _ rfl rfl rfl rfl hs
  take s _ _ hs := h.frames s _ rfl rfl rfl rfl hs
  installed s _ hs := h.frames s _ rfl rfl rfl rfl hs

omit h in
theorem nextVaddr : Keeps J (Paging.nextVaddr memPool) := by
  intro s hs a s' hrun
  cases hrun
  exact hs

theorem copyVirtPage : Keeps J Paging.copyVirtPage := by
  intro s hs a s' hrun
  cases hrun
  exact h.access s hs

theorem linkVirtPage : Keeps J (assign fun s => s.linkVirtPage memPool) := by
  intro s hs a s' hrun
  cases hrun
  exact h.link s hs

theorem pallocHeapLoop (flags n i r : Nat) :
    Keeps J (Paging.pallocHeapLoop memPool flags n i r) := by
  induction n generalizing i r with
  | zero => exact Keeps.pure
  | succ n ih =>
      refine h.copyVirtPage.bind fun _ => h.stable.getNextFree.bind fun p =>
        Ensures.ite (fun _ => Stable.noFrame _) fun _ => nextVaddr.bind fun vaddr =>
          (h.stable.mapPage _ _ _).bind fun _ => h.linkVirtPage.bind fun _ => ih _ _

theorem finish (n : Int) (flags : Nat) (res : Option Nat) :
    Keeps J (match res with
      | none => pure NO_ADDR
      | some r => do
          zeroPages flags r n
          pure r) := by
  cases res with
  | none => exact Keeps.pure
  | some r => exact (h.stable.zeroPages _ _ _).bind fun _ => Keeps.pure

theorem pallocHeap (n : Int) (flags : Nat) : Keeps J (Paging.pallocHeap n memPool flags) :=
  (h.pallocHeapLoop _ _ _ _).bind fun res => h.finish n flags res

end PoolStable

/-- The address the next call of `get_next_free_physical_page` returns. -/
def PagingState.nextAddress (s : PagingState) : Nat :=
  match firstFree s.physicalPageEntries with
  | some i => s.addr i
  | none => NO_ADDR

section Rounds

variable {s s' : PagingState} {memPool flags r : Nat} {n : Int} {J : PagingState → Prop}

theorem getNext_nextAddress {p : Nat} (h : getNextFreePhysicalPage s = .ok (p, s')) :
    p = s.nextAddress := by
  unfold PagingState.nextAddress
  cases hfree : firstFree s.physicalPageEntries with
  | none =>
      rw [getNextFreePhysicalPage_none hfree] at h
      cases h
      rfl
  | some i =>
      rw [getNextFreePhysicalPage_run hfree] at h
      cases h
      rfl

theorem nextAddress_congr (h : s'.physicalPageEntries = s.physicalPageEntries) :
    s'.nextAddress = s.nextAddress := by
  unfold PagingState.nextAddress PagingState.addr
  rw [h]

theorem nextAddress_of_firstFree {i : Nat} (h : firstFree s.physicalPageEntries = some i) :
    s.nextAddress = s.addr i := by
  unfold PagingState.nextAddress
  rw [h]

theorem nextAddress_access (pool : Nat) (index : Int) :
    (s.access pool index).nextAddress = s.nextAddress :=
  nextAddress_congr (by unfold PagingState.access; dsimp only)

theorem copyVirtPage_run : Paging.copyVirtPage s
    = .ok ((), s.access s.kernelPool (s.index s.kernelPool)) := assign_run _

theorem nextVaddr_run : nextVaddr memPool s = .ok (ofInt (s.index memPool * 4096), s) := by
  rw [nextVaddr]

/-- A call that gets no frame changes no pool, and has read the table of the kernel's pool. -/
theorem pallocHeap_noFrame (hframes : ∀ s s' : PagingState, s'.pools = s.pools →
      s'.kernelPool = s.kernelPool → s'.accessed = s.accessed → s'.advanced = s.advanced →
      J s → J s')
    (hnone : s.nextAddress = NO_ADDR) (hn : 0 < n)
    (hJ : J (s.access s.kernelPool (s.index s.kernelPool)))
    (hrun : pallocHeap n memPool flags s = .ok (r, s')) : J s' := by
  obtain ⟨k, hk⟩ : ∃ k, n.toNat = k + 1 := ⟨n.toNat - 1, by omega⟩
  rw [pallocHeap, hk] at hrun
  obtain ⟨res, mid, hloop, hrest⟩ := Program.bind_eq_ok hrun
  rw [Paging.pallocHeapLoop, Program.bind_run_of_ok copyVirtPage_run] at hloop
  obtain ⟨p, taken, hnext, hround⟩ := Program.bind_eq_ok hloop
  have hp : p = NO_ADDR :=
    (getNext_nextAddress hnext).trans ((nextAddress_access _ _).trans hnone)
  rw [if_pos hp] at hround
  obtain ⟨hres, hmid⟩ := noFrame_eq_ok hround
  rw [hres, hmid] at hrest
  dsimp only at hrest
  rw [Program.pure_run] at hrest
  have hs' : taken = s' := congrArg Prod.snd (Except.ok.inj hrest)
  rw [← hs']
  have hstable : Stable J :=
    ⟨fun s _ _ _ hs => hframes s _ rfl rfl rfl rfl hs,
      fun s _ _ hs => hframes s _ rfl rfl rfl rfl hs,
      fun s _ hs => hframes s _ rfl rfl rfl rfl hs⟩
  exact hstable.getNextFree _ hJ _ _ hnext

/-- A call that gets a frame advances an index, and what the rounds keep from there on. -/
theorem pallocHeap_linked (h : PoolStable memPool J) (hsome : s.nextAddress ≠ NO_ADDR) (hn : 0 < n)
    (hlink : ∀ u : PagingState, u.pools = s.pools → u.kernelPool = s.kernelPool →
      J (u.linkVirtPage memPool))
    (hrun : pallocHeap n memPool flags s = .ok (r, s')) : J s' := by
  obtain ⟨k, hk⟩ : ∃ k, n.toNat = k + 1 := ⟨n.toNat - 1, by omega⟩
  rw [pallocHeap, hk] at hrun
  obtain ⟨res, mid, hloop, hrest⟩ := Program.bind_eq_ok hrun
  rw [Paging.pallocHeapLoop, Program.bind_run_of_ok copyVirtPage_run] at hloop
  obtain ⟨p, taken, hnext, hround⟩ := Program.bind_eq_ok hloop
  have hp : p ≠ NO_ADDR := by
    rw [getNext_nextAddress hnext, nextAddress_access]
    exact hsome
  rw [if_neg hp, Program.bind_run_of_ok nextVaddr_run] at hround
  obtain ⟨_, mapped, hmap, hlinked⟩ := Program.bind_eq_ok hround
  rw [Program.bind_run_of_ok (assign_run _)] at hlinked
  have hpools : mapped.pools = s.pools ∧ mapped.kernelPool = s.kernelPool := by
    have hstable := stable_pools fun pools pool => pools = s.pools ∧ pool = s.kernelPool
    have htaken : taken.pools = s.pools ∧ taken.kernelPool = s.kernelPool := by
      refine hstable.getNextFree _ ?_ p taken hnext
      exact ⟨rfl, rfl⟩
    exact hstable.mapPage _ _ _ taken htaken _ mapped hmap
  have hmid := h.pallocHeapLoop _ _ _ _ _ (hlink mapped hpools.1 hpools.2) _ _ hlinked
  exact h.finish n flags res mid hmid r s' hrest

end Rounds

/-! ## The table of a pool -/

/-- The pointer to an entry, null before the first and behind the last. -/
def entryPtr (pool : Nat) (index k : Int) : VirtPagePtr :=
  if 0 ≤ k ∧ k < index then .entry pool k else .null

/-- The entries below the index describe consecutive pages and are linked in their order. -/
structure PoolSound (P : Nat) (s : PagingState) : Prop where
  advanced : ∀ call ∈ s.advanced, call.1 = call.2
  bound : s.index P ≤ 512
  accessed : ∀ access ∈ s.accessed, access.1 = P → 0 ≤ access.2 ∧ access.2 < 512
  entries : ∀ k, 0 ≤ k → k < s.index P →
    (s.pools P).virtualPages k
      = ⟨.allocated, ofInt (k * 4096), entryPtr P (s.index P) (k + 1),
          entryPtr P (s.index P) (k - 1)⟩

/-- A call of `palloc_heap`. -/
structure HeapRequest where
  numPages : Int
  memPool : Nat
  flags : Nat

/-- The pool is set up by `init_heap_page`, then `palloc_heap` is called on any pools. -/
def poolMachine (P : Nat) : Machine PagingState HeapRequest where
  start s := ∃ s₀ flags, s₀.advanced = [] ∧ s₀.accessed = [] ∧ initHeapPage P flags s₀ = .ok ((), s)
  step s a s' := ∃ r, pallocHeap a.numPages a.memPool a.flags s = .ok (r, s')

/-- A call on the kernel's pool that writes to its table only, which is apart from the pool in
question: no round leaves `virtual_pages`, and nothing is cleared. -/
structure HeapRequest.Misses (P : Nat) (s : PagingState) (a : HeapRequest) : Prop where
  memPool : a.memPool = s.kernelPool
  apart : s.kernelPool + poolSize ≤ P ∨ P + poolSize ≤ s.kernelPool
  first : 1 ≤ s.index s.kernelPool
  last : s.index s.kernelPool + min a.numPages s.freeEntries.length ≤ 512
  zero : fZero a.flags = false

theorem HeapRequest.Misses.other {P : Nat} {s : PagingState} {a : HeapRequest}
    (h : a.Misses P s) : s.kernelPool ≠ P := by
  have hapart := h.apart
  unfold poolSize at hapart
  omega

/-- A call that makes no round to its end, or misses the pool in question. -/
def HeapRequest.Harmless (P : Nat) (s : PagingState) (a : HeapRequest) : Prop :=
  a.numPages ≤ 0 ∨ s.nextAddress = NO_ADDR ∨ a.Misses P s

/-- A call on the kernel's pool, another one than that in question, whose writes may leave it. -/
def HeapRequest.Strays (P : Nat) (s : PagingState) (a : HeapRequest) : Prop :=
  a.memPool = s.kernelPool ∧ s.kernelPool ≠ P ∧ ¬ a.Misses P s

section Pool

variable {P : Nat} {s s' : PagingState} {a : HeapRequest}

/-- What the table looks like as long as no call has touched it: one page. -/
structure OnePage (P : Nat) (s : PagingState) : Prop where
  sound : PoolSound P s
  index : s.index P = 1

theorem OnePage.congr (h : OnePage P s) (hpools : s'.pools P = s.pools P)
    (haccessed : ∀ access ∈ s'.accessed, access ∈ s.accessed ∨
      (access.1 = P → 0 ≤ access.2 ∧ access.2 < 512))
    (hadvanced : ∀ call ∈ s'.advanced, call ∈ s.advanced ∨ call.1 = call.2) : OnePage P s' := by
  have hindex : s'.index P = s.index P := by
    unfold PagingState.index
    rw [hpools]
  refine ⟨⟨?_, ?_, ?_, ?_⟩, hindex.trans h.index⟩
  · intro call hcall
    exact (hadvanced call hcall).elim (h.sound.advanced call) id
  · rw [hindex]
    exact h.sound.bound
  · intro access haccess
    exact (haccessed access haccess).elim (h.sound.accessed access) id
  · rw [hindex, hpools]
    exact h.sound.entries

theorem onePage_frames (s s' : PagingState) (hpools : s'.pools = s.pools)
    (haccessed : s'.accessed = s.accessed) (hadvanced : s'.advanced = s.advanced)
    (h : OnePage P s) : OnePage P s' := by
  apply h.congr (by rw [hpools])
  · intro access haccess
    exact .inl (haccessed ▸ haccess)
  · intro call hcall
    exact .inl (hadvanced ▸ hcall)

/-- The kernel's pool is read at its index, which is 1 in the pool in question. -/
theorem OnePage.access (h : OnePage P s) :
    OnePage P (s.access s.kernelPool (s.index s.kernelPool)) := by
  refine h.congr rfl ?_ fun call hcall => .inl hcall
  intro access haccess
  rcases List.mem_cons.mp haccess with rfl | hold
  · right
    intro heq
    dsimp only at heq ⊢
    rw [heq, h.index]
    omega
  · exact .inl hold

/-- Rounds on the kernel's pool where that is another pool. -/
theorem poolStable_other {K : Nat} (hK : K ≠ P) :
    PoolStable K fun s => s.kernelPool = K ∧ OnePage P s where
  frames s s' hpools hkernel haccessed hadvanced hs :=
    ⟨hkernel.trans hs.1, onePage_frames s s' hpools haccessed hadvanced hs.2⟩
  access s hs := ⟨hs.1, hs.2.access⟩
  link s hs := by
    obtain ⟨hkernel, h⟩ := hs
    refine ⟨hkernel, h.congr ?_ ?_ ?_⟩
    · unfold PagingState.linkVirtPage PagingState.setPool PagingState.access
      exact Function.update_of_ne (hkernel ▸ hK.symm) _ _
    · intro access haccess
      rcases List.mem_cons.mp haccess with rfl | hold
      · exact .inr fun heq => absurd (hkernel ▸ heq) hK
      · exact .inl hold
    · intro call hcall
      rcases List.mem_cons.mp hcall with rfl | hold
      · exact .inr hkernel.symm
      · exact .inl hold

/-- What a harmless call leaves. -/
theorem OnePage.harmless (h : OnePage P s) (hharmless : a.Harmless P s)
    (hstep : (poolMachine P).step s a s') : OnePage P s' := by
  obtain ⟨r, hrun⟩ := hstep
  by_cases hn : 0 < a.numPages
  · rcases hharmless with hle | hnone | hmisses
    · omega
    · exact pallocHeap_noFrame (fun s s' hpools _ => onePage_frames s s' hpools)
        hnone hn h.access hrun
    · rw [hmisses.memPool] at hrun
      exact ((poolStable_other hmisses.other).pallocHeap _ _ s ⟨rfl, h⟩ r s' hrun).2
  · rw [pallocHeap, show a.numPages.toNat = 0 by omega, pallocHeapLoop,
      Program.bind_run_of_ok (Program.pure_run _)] at hrun
    have hstable : Stable (OnePage P) :=
      ⟨fun s _ _ _ hs => onePage_frames s _ rfl rfl rfl hs,
        fun s _ _ hs => onePage_frames s _ rfl rfl rfl hs,
        fun s _ hs => onePage_frames s _ rfl rfl rfl hs⟩
    exact ((hstable.zeroPages _ _ _).bind fun _ => Keeps.pure) s h r s' hrun

/-- An index of a pool that was not given has been advanced. -/
theorem poolStable_advanced (call : Nat × Nat) (memPool : Nat) :
    PoolStable memPool fun s => call ∈ s.advanced where
  frames _ _ _ _ _ hadvanced hs := hadvanced ▸ hs
  access _ hs := hs
  link _ hs := List.mem_cons_of_mem _ hs

/-- The first entry of the table points to a local variable. -/
structure Dangling (P : Nat) (s : PagingState) : Prop where
  kernelPool : s.kernelPool = P
  index : 2 ≤ s.index P
  next : ((s.pools P).virtualPages 0).nextPage = .local

theorem dangling_link {u : PagingState} (hkernel : u.kernelPool = P) (hindex : 1 ≤ u.index P)
    (hnext : u.index P ≠ 1 → ((u.pools P).virtualPages 0).nextPage = .local) (memPool : Nat) :
    Dangling P (u.linkVirtPage memPool) := by
  have hpool : (u.linkVirtPage memPool).pools P = { (u.pools P).setEntry (u.index P - 1)
      (fun page => { page with nextPage := .local }) with
        nextFreePageIndex := u.index P + 1 } := by
    subst hkernel
    unfold PagingState.linkVirtPage PagingState.setPool PagingState.access PagingState.index
      Pool.setEntry
    exact Function.update_self ..
  refine ⟨hkernel, ?_, ?_⟩
  · rw [PagingState.index, hpool]
    dsimp only
    omega
  · rw [hpool]
    unfold Pool.setEntry
    dsimp only
    by_cases hone : u.index P = 1
    · rw [hone]
      rw [show (1 : Int) - 1 = 0 by decide, Function.update_self]
    · rw [Function.update_of_ne (by omega)]
      exact hnext hone

theorem poolStable_dangling (memPool : Nat) : PoolStable memPool (Dangling P) where
  frames s s' hpools hkernel _ _ hs := by
    refine ⟨hkernel.trans hs.kernelPool, ?_, ?_⟩
    · rw [PagingState.index, hpools]
      exact hs.index
    · rw [hpools]
      exact hs.next
  access _ hs := ⟨hs.kernelPool, hs.index, hs.next⟩
  link s hs := dangling_link hs.kernelPool (by have := hs.index; omega) (fun _ => hs.next) memPool

theorem Dangling.not_sound (h : Dangling P s) : ¬ PoolSound P s := by
  intro hsound
  have hentry := hsound.entries 0 (Int.le_refl 0) (by have := h.index; omega)
  have hnext := h.next
  rw [hentry] at hnext
  unfold entryPtr at hnext
  dsimp only at hnext
  split at hnext
  · cases hnext
  · cases hnext

/-- A call that is not harmless breaks the table, unless it strays from another pool. -/
theorem OnePage.not_harmless (h : OnePage P s) (hharmful : ¬ a.Harmless P s)
    (hstrays : ¬ a.Strays P s) (hstep : (poolMachine P).step s a s') : ¬ PoolSound P s' := by
  obtain ⟨r, hrun⟩ := hstep
  have hn : 0 < a.numPages := by
    by_contra hle
    exact hharmful (.inl (by omega))
  have hsome : s.nextAddress ≠ NO_ADDR := fun hnone => hharmful (.inr (.inl hnone))
  by_cases hpool : a.memPool = s.kernelPool
  · have hkernel : s.kernelPool = P := by
      by_contra hother
      exact hstrays ⟨hpool, hother, fun hmisses => hharmful (.inr (.inr hmisses))⟩
    refine Dangling.not_sound (pallocHeap_linked (poolStable_dangling a.memPool) hsome hn ?_ hrun)
    intro u hpools hkernel'
    have hindex : u.index P = 1 := by
      rw [PagingState.index, hpools]
      exact h.index
    exact dangling_link (hkernel'.trans hkernel) (by omega) (fun hne => absurd hindex hne) _
  · have hmem : (a.memPool, s.kernelPool) ∈ s'.advanced := by
      refine pallocHeap_linked (poolStable_advanced _ _) hsome hn ?_ hrun
      intro u _ hkernel
      rw [← hkernel]
      exact List.mem_cons_self
    exact fun hsound => hpool (hsound.advanced _ hmem)

theorem modifyPool_eq {pl : Nat} {f : Pool → Pool} (h : modifyPool pl f s = .ok ((), s')) :
    s'.pools pl = f (s.pools pl) ∧ s'.accessed = s.accessed ∧ s'.advanced = s.advanced := by
  cases h
  exact ⟨Function.update_self .., rfl, rfl⟩

theorem modifyFirstPage_eq {pl : Nat} {f : VirtPage → VirtPage}
    (h : modifyFirstPage pl f s = .ok ((), s')) : s'.pools pl = (s.pools pl).setEntry 0 f ∧
      s'.accessed = (pl, 0) :: s.accessed ∧ s'.advanced = s.advanced := by
  cases h
  exact ⟨Function.update_self .., rfl, rfl⟩

/-- What `init_heap_page` has done to the pool by the time it maps page 0. -/
structure FirstPage (P : Nat) (s : PagingState) : Prop where
  index : s.index P = 1
  type : ((s.pools P).virtualPages 0).type = .allocated
  accessed : ∀ access ∈ s.accessed, access = (P, 0)
  advanced : s.advanced = []

theorem stable_firstPage : Stable (FirstPage P) where
  set _ _ _ _ hs := ⟨hs.index, hs.type, hs.accessed, hs.advanced⟩
  take _ _ _ hs := ⟨hs.index, hs.type, hs.accessed, hs.advanced⟩
  installed _ _ hs := ⟨hs.index, hs.type, hs.accessed, hs.advanced⟩

theorem stable_onePage : Stable (OnePage P) where
  set s _ _ _ hs := onePage_frames s _ rfl rfl rfl hs
  take s _ _ hs := onePage_frames s _ rfl rfl rfl hs
  installed s _ hs := onePage_frames s _ rfl rfl rfl hs

theorem onePage_start (h : (poolMachine P).start s) : OnePage P s := by
  obtain ⟨s₀, flags, hadvanced, haccessed, hrun⟩ := h
  obtain ⟨_, s₁, hcheck, hrun₁⟩ := Program.bind_eq_ok hrun
  obtain ⟨p, s₂, hnext, hrun₂⟩ := Program.bind_eq_ok hrun₁
  obtain ⟨_, s₃, hindex, hrun₃⟩ := Program.bind_eq_ok hrun₂
  obtain ⟨_, s₄, htype, hrun₄⟩ := Program.bind_eq_ok hrun₃
  obtain ⟨_, s₅, hmap, hrun₅⟩ := Program.bind_eq_ok hrun₄
  obtain ⟨_, s₆, hlinks, hrun₆⟩ := Program.bind_eq_ok hrun₅
  obtain ⟨_, s₇, hring, hheap⟩ := Program.bind_eq_ok hrun₆
  have h₂ : s₂.advanced = [] ∧ s₂.accessed = [] := by
    have hstable : Stable fun s => s.advanced = [] ∧ s.accessed = [] :=
      ⟨fun _ _ _ _ hs => hs, fun _ _ _ hs => hs, fun _ _ hs => hs⟩
    have hs₁ : s₁ = s₀ := by
      unfold checkFresh at hcheck
      split at hcheck
      · cases hcheck
      · exact (congrArg Prod.snd (Except.ok.inj hcheck)).symm
    exact hstable.getNextFree s₁ (hs₁ ▸ ⟨hadvanced, haccessed⟩) p s₂ hnext
  obtain ⟨hpool₃, haccessed₃, hadvanced₃⟩ := modifyPool_eq hindex
  obtain ⟨hpool₄, haccessed₄, hadvanced₄⟩ := modifyFirstPage_eq htype
  have h₄ : FirstPage P s₄ := by
    refine ⟨?_, ?_, ?_, by rw [hadvanced₄, hadvanced₃, h₂.1]⟩
    · simp [PagingState.index, hpool₄, hpool₃, Pool.setEntry]
    · simp [hpool₄, hpool₃, Pool.setEntry]
    · intro access haccess
      rw [haccessed₄, haccessed₃, h₂.2] at haccess
      exact List.mem_singleton.mp haccess
  have h₅ : FirstPage P s₅ := stable_firstPage.mapPage _ _ _ s₄ h₄ () s₅ hmap
  obtain ⟨hpool₆, haccessed₆, hadvanced₆⟩ := modifyFirstPage_eq hlinks
  obtain ⟨hpool₇, haccessed₇, hadvanced₇⟩ := modifyPool_eq hring
  have h₇ : OnePage P s₇ := by
    have hone : s₇.index P = 1 := by
      have := h₅.index
      simp only [PagingState.index] at this ⊢
      simp [hpool₇, hpool₆, Pool.setEntry, this]
    refine ⟨⟨?_, by omega, ?_, ?_⟩, hone⟩
    · rw [hadvanced₇, hadvanced₆, h₅.advanced]
      exact fun _ hcall => absurd hcall List.not_mem_nil
    · intro access haccess _
      have heq : access = (P, 0) := by
        rw [haccessed₇, haccessed₆] at haccess
        rcases List.mem_cons.mp haccess with rfl | hold
        · rfl
        · exact h₅.accessed access hold
      rw [heq]
      dsimp only
      omega
    · intro k hlow hhigh
      obtain rfl : k = 0 := by omega
      have htype₅ := h₅.type
      rw [hone, hpool₇]
      simp only [hpool₆, Pool.setEntry, Function.update_self, htype₅]
      have hnext : entryPtr P 1 (0 + 1) = .null := if_neg (by decide)
      have hprevious : entryPtr P 1 (0 - 1) = .null := if_neg (by decide)
      have hvaddr : ofInt (0 * 4096) = 0 := by decide
      rw [hnext, hprevious, hvaddr]
  exact stable_onePage.initialiseHeap _ _ s₇ h₇ () s hheap

end Pool

section Returns

variable {s u : PagingState} {f : Nat}

/-- `initialiseHeap` on page 0, in a frame that is no table. -/
theorem initialiseHeap_run (hframe : frameOf s.frames 0 = some f) (hfresh : ¬ s.frames.IsTable f) :
    ∃ m, initialiseHeap 0 PGSIZE s = .ok ((), { s with frames := m }) := by
  have hsteady : s.frames.Steady (· = f) 0 f :=
    steady_of_not_isTable (by decide) hframe fun g hg => hg ▸ hfresh
  have hstore : ∀ (u : PagingState) (v word : Nat), u.frames.Steady (· = f) 0 f → pageOf v = 0 →
      store v word u = .ok ((), u.set f (wordOf v) word) ∧
        (u.set f (wordOf v) word).frames.Steady (· = f) 0 f := by
    intro u v word hu hv
    rw [← hv] at hu
    exact ⟨modify_run (hu _ fun _ _ => rfl) fun _ => word, hv ▸ hu.set rfl⟩
  obtain ⟨h₁, hsteady₁⟩ := hstore s 0 (u32 (PGSIZE + 4294967296 - 24)) hsteady (by decide)
  obtain ⟨h₂, hsteady₂⟩ := hstore _ (u32 (0 + 12)) 0 hsteady₁ (by decide)
  obtain ⟨h₃, hsteady₃⟩ := hstore _ (u32 (0 + 4)) 0 hsteady₂ (by decide)
  obtain ⟨h₄, hsteady₄⟩ := hstore _ (u32 (0 + 16)) 0 hsteady₃ (by decide)
  obtain ⟨h₅, hsteady₅⟩ := hstore _ (u32 (0 + 8)) 0 hsteady₄ (by decide)
  obtain ⟨h₆, _⟩ := hstore _ (u32 (0 + 20)) 1 hsteady₅ (by decide)
  rw [initialiseHeap, Program.bind_run_of_ok h₁, Program.bind_run_of_ok h₂,
    Program.bind_run_of_ok h₃, Program.bind_run_of_ok h₄, Program.bind_run_of_ok h₅, h₆]
  exact ⟨_, rfl⟩

/-- `init_heap_page` on an unused pool, with page 0 in a table that exists. -/
theorem initHeapPage_run (h : Sound s) {P flags i : Nat} (hunused : s.index P = 0)
    (hi : firstFree s.physicalPageEntries = some i) (hslot : s.frames.HasTable 0) :
    ∃ s', initHeapPage P flags s = .ok ((), s') ∧
      s'.physicalPageEntries = (s.take i).physicalPageEntries ∧ s'.kernelPool = s.kernelPool ∧
      ∀ q ≠ P, s'.pools q = s.pools q := by
  obtain ⟨htake, hfresh, _⟩ := h.take (firstFree_eq_some hi)
  obtain ⟨haligned, hlt, hnot⟩ := hfresh
  have hcheck : checkFresh P s = .ok ((), s) := by
    unfold checkFresh
    rw [hunused]
    exact if_neg fun hne => hne rfl
  generalize hp : s.addr i = p at haligned hlt hnot
  have hnext : getNextFreePhysicalPage s = .ok (p, s.take i) := by
    rw [getNextFreePhysicalPage_run hi, ← hp, PagingState.addr]
  -- the assignments to the pool do not touch the frames
  obtain ⟨u, hu, hframes, hentries, hkernel, hpools⟩ : ∃ u, (∀ m : Unit → PageM Unit,
      ((modifyPool P fun q => { q with nextFreePageIndex := 1 }) >>= fun _ =>
        (modifyFirstPage P fun page => { page with type := .allocated }) >>= m) (s.take i)
        = m () u) ∧ u.frames = s.frames ∧
        u.physicalPageEntries = (s.take i).physicalPageEntries ∧ u.kernelPool = s.kernelPool ∧
        ∀ q ≠ P, u.pools q = s.pools q :=
    ⟨_, fun _ => rfl, rfl, rfl, rfl,
      fun q hq => (Function.update_of_ne hq _ _).trans (Function.update_of_ne hq _ _)⟩
  have hslot' : u.frames.HasTable (slotOf (pageOf 0)) := by
    rw [hframes]
    exact hslot
  have hpaged : Paged u.frames := hframes ▸ h.paged
  have hself : pageOf 0 ≠ tablePage (u.frames.table (slotOf (pageOf 0))) := by
    have hwindow := hpaged.low _ hslot'
    rw [tablePage_window hwindow]
    unfold kernelPage pageOf
    omega
  have hmap : mapPage p 0 F_KERN u = .ok ((), u.mapped (pageOf 0) p F_KERN) :=
    hpaged.tables.mapPage_present (by decide) haligned (by decide) hslot' hself
  generalize hw : u.mapped (pageOf 0) p F_KERN = w at hmap
  have hframe : frameOf w.frames 0 = some (p / 4096) := by
    have hmapped : frameOf (u.mapped (pageOf 0) p F_KERN).frames (pageOf 0) = _ :=
      hpaged.tables.frameOf_mapped hslot'
    rw [hw, Nat.mod_eq_of_lt (by unfold windowFrames at hlt; omega)] at hmapped
    exact hmapped
  have hnotTable : ¬ w.frames.IsTable (p / 4096) := by
    rw [← hw, mapped_frames, isTable_set (hpaged.apart _ hslot'), hframes]
    exact hnot
  obtain ⟨x, hx, hxframes, hxentries, hxkernel, hxpools⟩ : ∃ x, (∀ m : Unit → PageM Unit,
      ((modifyFirstPage P fun page =>
          { page with baseVaddr := 0, nextPage := .null, previousPage := .null }) >>= fun _ =>
        (modifyPool P fun q => { q with ring := if fKern flags then 0 else 3 }) >>= m) w
        = m () x) ∧ x.frames = w.frames ∧ x.physicalPageEntries = w.physicalPageEntries ∧
        x.kernelPool = w.kernelPool ∧ ∀ q ≠ P, x.pools q = w.pools q :=
    ⟨_, fun _ => rfl, rfl, rfl, rfl,
      fun q hq => (Function.update_of_ne hq _ _).trans (Function.update_of_ne hq _ _)⟩
  obtain ⟨m, hheap⟩ := @initialiseHeap_run x (p / 4096) (hxframes ▸ hframe) (hxframes ▸ hnotTable)
  refine ⟨{ x with frames := m }, ?_, ?_, ?_, ?_⟩
  · rw [initHeapPage, Program.bind_run_of_ok hcheck, Program.bind_run_of_ok hnext, hu,
      Program.bind_run_of_ok hmap, hx, hheap]
  · change x.physicalPageEntries = _
    rw [hxentries, ← hw, ← hentries]
    rfl
  · change x.kernelPool = _
    rw [hxkernel, ← hw, ← hkernel]
    rfl
  · intro q hq
    change x.pools q = _
    rw [hxpools q hq, ← hw, ← hpools q hq]
    rfl

/-- One page for a pool with the index 1, in a table that exists. -/
theorem Paged.pallocHeap_run (h : Paged s.frames) {P i : Nat} (hindex : s.index P = 1)
    (hi : firstFree s.physicalPageEntries = some i) (haligned : s.addr i % 4096 = 0)
    (hne : s.addr i ≠ NO_ADDR) (hslot : s.frames.HasTable 0) :
    ∃ s', pallocHeap 1 P 0 s = .ok (4096, s') ∧ s'.frames = (s.mapped 1 (s.addr i) 0).frames := by
  generalize hp : s.addr i = p at haligned hne
  generalize hu : s.access s.kernelPool (s.index s.kernelPool) = u
  have hframes : u.frames = s.frames := by rw [← hu, PagingState.access]
  have hentries : u.physicalPageEntries = s.physicalPageEntries := by rw [← hu, PagingState.access]
  have hpools : u.pools = s.pools := by rw [← hu, PagingState.access]
  have hcopy : copyVirtPage s = .ok ((), u) := by rw [copyVirtPage_run, hu]
  have hnext : getNextFreePhysicalPage u = .ok (p, u.take i) := by
    rw [getNextFreePhysicalPage_run (by rw [hentries]; exact hi), ← hp, PagingState.addr, hentries]
  have hvaddr : nextVaddr P (u.take i) = .ok (4096, u.take i) := by
    have hone : (u.take i).index P = 1 := by
      rw [← hindex, PagingState.index, PagingState.index, ← hpools]
      rfl
    rw [nextVaddr_run, hone, show ofInt (1 * 4096) = 4096 by decide]
  have hslot' : (u.take i).frames.HasTable (slotOf (pageOf 4096)) := by
    change u.frames.HasTable 0
    rw [hframes]
    exact hslot
  have hpaged : Paged (u.take i).frames := by
    change Paged u.frames
    rw [hframes]
    exact h
  have hself : pageOf 4096 ≠ tablePage ((u.take i).frames.table (slotOf (pageOf 4096))) := by
    have hwindow := hpaged.low _ hslot'
    rw [tablePage_window hwindow]
    unfold kernelPage pageOf
    omega
  have hmap : mapPage p 4096 0 (u.take i) = .ok ((), (u.take i).mapped (pageOf 4096) p 0) :=
    hpaged.tables.mapPage_present (by decide) haligned (by decide) hslot' hself
  have hzero : ∀ w, zeroPages 0 4096 1 w = .ok ((), w) := by
    intro w
    unfold zeroPages
    rw [if_neg (by decide), Program.pure_run]
  have hmapped : ((u.take i).mapped (pageOf 4096) p 0).frames = (s.mapped 1 p 0).frames := by
    have htake : (u.take i).frames = s.frames := hframes
    rw [show pageOf 4096 = 1 by decide, mapped_frames, mapped_frames, htake]
  generalize hw : (u.take i).mapped (pageOf 4096) p 0 = w at hmap hmapped
  have hloop : pallocHeapLoop P 0 1 0 0 s = .ok (some 4096, w.linkVirtPage P) := by
    rw [pallocHeapLoop, Program.bind_run_of_ok hcopy, Program.bind_run_of_ok hnext,
      if_neg hne, Program.bind_run_of_ok hvaddr, Program.bind_run_of_ok hmap,
      Program.bind_run_of_ok (assign_run _), pallocHeapLoop, if_pos rfl, Program.pure_run]
  refine ⟨w.linkVirtPage P, ?_, hmapped⟩
  rw [pallocHeap, show (1 : Int).toNat = 1 by decide, Program.bind_run_of_ok hloop]
  dsimp only
  rw [Program.bind_run_of_ok (hzero _), Program.pure_run]

/-- The address of a pool in the window, apart from the free frames below. -/
def poolAddr : Nat := 0xC0300000

/-- The boot state with some free frames. -/
def freeFrames (count : Nat) : PagingState :=
  { blankBoot with
    physicalPageEntries := fun i => if i < count then ⟨.free, (0x200 + i) * 4096⟩ else ⟨.unset, 0⟩
    kernelPool := poolAddr }

theorem freeFrames_frames (count : Nat) : (freeFrames count).frames = bootMemory fun _ _ => 0 := by
  simp only [freeFrames, blankBoot]

theorem freeFrames_free {count i : Nat} (hcount : count ≤ 2) :
    (freeFrames count).Free i ↔ i < count := by
  constructor
  · rintro ⟨_, htype⟩
    simp only [freeFrames] at htype
    split at htype
    · assumption
    · cases htype
  · intro hi
    refine ⟨by unfold MAX_PHYS_PAGES; omega, ?_⟩
    simp only [freeFrames, if_pos hi]

theorem freeFrames_addr {count i : Nat} (hi : i < count) :
    (freeFrames count).addr i = (0x200 + i) * 4096 := by
  simp only [PagingState.addr, freeFrames, if_pos hi]

theorem sound_freeFrames {count : Nat} (hcount : count ≤ 2) : Sound (freeFrames count) := by
  refine ⟨?_, ?_, ?_⟩
  · rw [freeFrames_frames]
    exact paged_bootMemory _
  · intro i hi
    have hlt := (freeFrames_free hcount).mp hi
    rw [freeFrames_addr hlt, freeFrames_frames]
    refine ⟨by omega, by unfold windowFrames; omega, ?_⟩
    rintro (heq | ⟨slot, hslot, heq⟩)
    · unfold directoryFrame at heq
      omega
    · rw [bootMemory_table _ hslot] at heq
      split at heq
      · omega
      · omega
  · intro i j hi hj heq
    rw [freeFrames_addr ((freeFrames_free hcount).mp hi),
      freeFrames_addr ((freeFrames_free hcount).mp hj)] at heq
    omega

/-- The boot state with two free frames, an unused pool, and a kernel's pool: that one, or one
with the index 1. -/
def twoPools (kernelPool : Nat) : PagingState :=
  { freeFrames 2 with
    kernelPool := kernelPool
    pools := fun pool => ⟨0, if pool = poolAddr then 0 else 1, fun _ => ⟨.unset, 0, .null, .null⟩⟩ }

theorem sound_twoPools (kernelPool : Nat) : Sound (twoPools kernelPool) := by
  have hkept : Kept (fun _ => False) (freeFrames 2) (twoPools kernelPool) :=
    (sound_freeFrames (Nat.le_refl 2)).kept (by simp only [twoPools]) (by simp only [twoPools])
  exact hkept.sound

theorem twoPools_index (kernelPool pool : Nat) :
    (twoPools kernelPool).index pool = if pool = poolAddr then 0 else 1 := by
  simp only [PagingState.index, twoPools]

/-- `init_heap_page` on the unused pool, then one page for the kernel's pool. -/
theorem twoPools_calls (K : Nat) : ∃ s s', (poolMachine poolAddr).start s ∧
    (poolMachine poolAddr).step s ⟨1, K, 0⟩ s' ∧ s.kernelPool = K ∧ s.index K = 1 ∧
    s.nextAddress ≠ NO_ADDR := by
  have hfree : ∀ i, (twoPools K).Free i ↔ i < 2 := by
    intro i
    rw [← freeFrames_free (Nat.le_refl 2)]
    unfold PagingState.Free
    rw [twoPools]
  have hboot : Sound (twoPools K) := sound_twoPools K
  have hfirst : firstFree (twoPools K).physicalPageEntries = some 0 :=
    firstFree_of_least ((hfree 0).mpr (by decide)) fun j _ => Nat.zero_le j
  have hslot : (twoPools K).frames.HasTable 0 := by
    rw [twoPools, freeFrames_frames, bootMemory_hasTable]
    omega
  obtain ⟨s, hrun, hentries, hkernel, hpools⟩ :
      ∃ s', initHeapPage poolAddr F_KERN (twoPools K) = .ok ((), s') ∧ _ ∧ _ ∧ _ :=
    initHeapPage_run hboot ((twoPools_index K poolAddr).trans (if_pos rfl)) hfirst hslot
  have hstart : (poolMachine poolAddr).start s := ⟨twoPools K, F_KERN, rfl, rfl, hrun⟩
  have hindex : s.index K = 1 := by
    by_cases hK : K = poolAddr
    · rw [hK]
      exact (onePage_start hstart).index
    · rw [PagingState.index, hpools K hK, ← PagingState.index, twoPools_index, if_neg hK]
  obtain ⟨hsound, hchanges⟩ := hboot.initHeapPage hrun
  have hleft : ∀ j, s.Free j ↔ j < 2 ∧ j ≠ 0 := by
    intro j
    rw [← hfree, ← take_free]
    unfold PagingState.Free
    rw [hentries]
  have hsecond : firstFree s.physicalPageEntries = some 1 := by
    refine firstFree_of_least ((hleft 1).mpr (by decide)) fun j hj => ?_
    have := (hleft j).mp hj
    omega
  have hslot' : s.frames.HasTable 0 := hchanges.hasTable hboot.paged hslot
  have husable := hsound.usable 1 ((hleft 1).mpr (by decide))
  obtain ⟨s', hcall, _⟩ := hsound.paged.pallocHeap_run hindex hsecond husable.1
    husable.ne_noAddr hslot'
  refine ⟨s, s', hstart, ⟨4096, hcall⟩, hkernel, hindex, ?_⟩
  rw [nextAddress_of_firstFree hsecond]
  exact husable.ne_noAddr

/-- A pool behind the one that is set up. -/
def otherPool : Nat := 0xC0304000

end Returns

end NickOS3.Paging
