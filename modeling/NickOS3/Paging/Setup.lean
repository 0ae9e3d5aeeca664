import NickOS3.Paging.Calls

/-!
# The table of frames after `setupAvailablePages`

Which page of the memory map each entry of `physical_page_entries` names, and the table once
its reserved entries are marked.
-/

namespace NickOS3.Paging

open Foundation

/-- The region and the page of it that entry `n` of the table is filled with. -/
def pageAt : List MemoryMapEntry → Nat → Option (MemoryMapEntry × Nat)
  | [], _ => none
  | r :: rest, n =>
      if n < r.maxPages.toNat then some (r, n) else pageAt rest (n - r.maxPages.toNat)

/-- The entries that are reserved: 32 of them, and that of the frame of video memory. -/
def ReservedEntry (n : Nat) : Prop := n < 32 ∨ n = 0xb8000 / PGSIZE

instance (n : Nat) : Decidable (ReservedEntry n) := inferInstanceAs (Decidable (_ ∨ _))

/-- Regions have no address in common. -/
def MemoryMapEntry.Disjoint (r r' : MemoryMapEntry) : Prop :=
  r.length = 0 ∨ r'.length = 0 ∨ r.base + r.length ≤ r'.base ∨ r'.base + r'.length ≤ r.base

instance (r r' : MemoryMapEntry) : Decidable (r.Disjoint r') :=
  inferInstanceAs (Decidable (_ ∨ _))

/-- What `getUsableMemoryRegions` gives: at most ten regions, with 64-bit fields and disjoint. -/
structure UsableMap (regions : List MemoryMapEntry) : Prop where
  count : regions.length ≤ 10
  fits : ∀ r ∈ regions, r.base < 18446744073709551616 ∧ r.length < 18446744073709551616
  disjoint : regions.Pairwise MemoryMapEntry.Disjoint

/-- The entries that are not reserved are filled with pages that are `Good`. -/
def MapFits (Good : Nat → MemoryMapEntry → Nat → Prop) (regions : List MemoryMapEntry) : Prop :=
  ∀ n < MAX_PHYS_PAGES, ¬ ReservedEntry n → ∀ r x, pageAt regions n = some (r, x) → Good n r x

section Fill

variable {regions : List MemoryMapEntry} {r r' : MemoryMapEntry} {n n' x x' : Nat}

theorem int32_toNat_le (k : Nat) : (int32 (k : Nat)).toNat ≤ k := by
  unfold int32
  rw [Int.bmod_def]
  split <;> omega

/-- A page of the table lies inside its region. -/
theorem pageAt_mem (h : pageAt regions n = some (r, x)) :
    r ∈ regions ∧ (x + 1) * 4096 ≤ r.length := by
  induction regions generalizing n with
  | nil => cases h
  | cons head rest ih =>
      rw [pageAt] at h
      split at h
      · rename_i hlt
        cases h
        refine ⟨List.mem_cons_self, ?_⟩
        have := int32_toNat_le (r.length / 4096)
        unfold MemoryMapEntry.maxPages at hlt
        omega
      · obtain ⟨hmem, hle⟩ := ih h
        exact ⟨List.mem_cons_of_mem _ hmem, hle⟩

/-- Two entries name different pages of one region, or pages of disjoint regions. -/
theorem pageAt_ne (hdisjoint : regions.Pairwise MemoryMapEntry.Disjoint)
    (h : pageAt regions n = some (r, x)) (h' : pageAt regions n' = some (r', x'))
    (hne : n ≠ n') : r.Disjoint r' ∨ r'.Disjoint r ∨ r = r' ∧ x ≠ x' := by
  induction regions generalizing n n' with
  | nil => cases h
  | cons head rest ih =>
      obtain ⟨hhead, hrest⟩ := List.pairwise_cons.mp hdisjoint
      rw [pageAt] at h h'
      split at h
      · cases h
        split at h'
        · cases h'
          exact .inr (.inr ⟨rfl, hne⟩)
        · exact .inl (hhead _ (pageAt_mem h').1)
      · split at h'
        · cases h'
          exact .inr (.inl (hhead _ (pageAt_mem h).1))
        · exact ih hrest h h' (by omega)

/-- Different entries name different frames. -/
theorem frame_ne (hdisjoint : regions.Pairwise MemoryMapEntry.Disjoint)
    (h : pageAt regions n = some (r, x)) (h' : pageAt regions n' = some (r', x'))
    (hne : n ≠ n') (haligned : r.base % 4096 = 0) (haligned' : r'.base % 4096 = 0) :
    r.base / 4096 + x ≠ r'.base / 4096 + x' := by
  have hle := (pageAt_mem h).2
  have hle' := (pageAt_mem h').2
  rcases pageAt_ne hdisjoint h h' hne with hd | hd | ⟨rfl, hx⟩
  · unfold MemoryMapEntry.Disjoint at hd
    omega
  · unfold MemoryMapEntry.Disjoint at hd
    omega
  · omega

theorem fillRegion_eq (base k x pg : Nat) (entries : Nat → PhysPage) (hpg : pg ≤ MAX_PHYS_PAGES) :
    fillRegion base k x pg entries
      = (min (pg + k) MAX_PHYS_PAGES, fun i =>
        if pg ≤ i ∧ i < pg + k ∧ i < MAX_PHYS_PAGES then
          ⟨.free, u32 (base + (x + (i - pg)) * PGSIZE)⟩ else entries i) := by
  induction k generalizing x pg entries with
  | zero =>
      rw [fillRegion, Nat.add_zero, Nat.min_eq_left hpg]
      congr 1
      funext i
      rw [if_neg (by omega)]
  | succ k ih =>
      rw [fillRegion]
      split
      · rename_i hlt
        rw [ih _ _ _ (by omega), Nat.add_right_comm pg 1 k]
        congr 1
        funext i
        by_cases hi : i = pg
        · subst hi
          rw [if_neg (by omega), if_pos (by omega), Function.update_self, Nat.sub_self]
          simp
        · rw [Function.update_of_ne hi]
          by_cases hin : pg + 1 ≤ i ∧ i < pg + k + 1 ∧ i < MAX_PHYS_PAGES
          · rw [if_pos hin, if_pos (by omega), show x + 1 + (i - (pg + 1)) = x + (i - pg) by omega]
          · rw [if_neg hin, if_neg (by omega)]
      · rename_i hge
        rw [Nat.min_eq_right (by omega), Nat.le_antisymm hpg (Nat.le_of_not_lt hge)]
        congr 1
        funext i
        rw [if_neg (by omega)]

/-- What `fillTable` puts into an entry. -/
theorem fillTable_eq (regions : List MemoryMapEntry) (pg : Nat) (entries : Nat → PhysPage)
    (hpg : pg ≤ MAX_PHYS_PAGES) {i : Nat} (hi : i < MAX_PHYS_PAGES) :
    fillTable regions pg entries i
      = if i < pg then entries i else
        match pageAt regions (i - pg) with
        | some (r, x) => ⟨.free, u32 (r.baseAddr + x * PGSIZE)⟩
        | none => entries i := by
  induction regions generalizing pg entries with
  | nil => simp [fillTable, pageAt]
  | cons r rest ih =>
      unfold fillTable at ih ⊢
      rw [List.foldl_cons, fillFrom, fillRegion_eq _ _ _ _ _ hpg, ih _ _ (by omega), pageAt]
      generalize r.maxPages.toNat = k
      by_cases hlt : i < pg
      · rw [if_pos (by omega), if_neg (by omega), if_pos hlt]
      · rw [if_neg hlt]
        by_cases hin : i - pg < k
        · rw [if_pos (by omega), if_pos (by omega), if_pos hin, Nat.zero_add]
        · rw [if_neg (by omega), if_neg (by omega), if_neg hin,
            show i - min (pg + k) MAX_PHYS_PAGES = i - pg - k by omega]

end Fill

/-- The table once the reserved entries are marked. -/
def reservedTable (regions : List MemoryMapEntry) (entries : Nat → PhysPage) : Nat → PhysPage :=
  fun i => if ReservedEntry i then { fillTable regions 0 entries i with type := .reserved }
    else fillTable regions 0 entries i

section Reserve

variable {heap : Nat → Prop} {s : PagingState}

/-- An entry is marked as reserved. -/
def markReserved (entries : Nat → PhysPage) (i : Nat) : Nat → PhysPage :=
  Function.update entries i { entries i with type := .reserved }

/-- The part of `setupAvailablePages` before `base_pd`. -/
structure Reserving (s s' : PagingState) (marked : Nat → Prop) : Prop where
  paged : Paged s'.frames
  tables : ∀ f, s'.frames.IsTable f ↔ s.frames.IsTable f
  changes : ∀ heap, Changes heap s.frames s'.frames
  directory : s'.frames directoryFrame = s.frames directoryFrame
  data : ∀ f, ¬ s.frames.IsTable f → s'.frames f = s.frames f
  entries : ∀ i, s'.physicalPageEntries i = s.physicalPageEntries i ∧ ¬ marked i ∨
    s'.physicalPageEntries i = { s.physicalPageEntries i with type := .reserved } ∧ marked i
  returned : s'.returned = s.returned
  installed : s'.installed = s.installed
  pools : s'.pools = s.pools
  kernelPool : s'.kernelPool = s.kernelPool

theorem Paged.reservePage (h : Paged s.frames) {i : Nat} (hi : i < 0x1000) :
    ∃ s', reservePage i s = .ok ((), s') ∧ Reserving s s' (· = i) := by
  have hdiv : i * 4096 / 4096 = i := Nat.mul_div_cancel _ (by decide)
  have hlt : i * 4096 / 4096 < windowFrames := by
    unfold windowFrames
    omega
  have hself : i * 4096 / 4096 ≠ windowTable (i * 4096 / 4096) := by
    unfold windowTable
    omega
  generalize hu : ({ s with physicalPageEntries := markReserved s.physicalPageEntries i } :
    PagingState) = u
  have hframes : u.frames = s.frames := hu ▸ rfl
  have hpaged : Paged u.frames := hframes ▸ h
  have hmap : mapPage (i * 4096) (kptov (i * 4096)) F_KERN u
      = .ok ((), u.mapped (tablePage (i * 4096 / 4096)) (i * 4096) F_KERN) :=
    hpaged.mapPage_window (Nat.mul_mod_left _ _) hlt hself
  have hchange : ∀ heap, Change heap u.frames
      (u.mapped (tablePage (i * 4096 / 4096)) (i * 4096) F_KERN).frames := by
    intro heap
    rw [hpaged.mapped_window hlt]
    exact .window hlt (present_mapEntry ..) (baseAddr_mapEntry_window hlt _)
  refine ⟨u.mapped (tablePage (i * 4096 / 4096)) (i * 4096) F_KERN, ?_, ?_⟩
  · unfold Paging.reservePage
    rw [Program.bind_run_of_ok (assign_run _)]
    rw [← hmap, ← hu]
    rfl
  · refine ⟨(hchange fun _ => False).paged hpaged, ?_, ?_, ?_, ?_, ?_, ?_, ?_, ?_, ?_⟩
    · intro f
      rw [hpaged.mapped_window hlt, isTable_set windowTable_ne, hframes]
    · intro heap
      exact hframes ▸ .single (hchange heap)
    · funext k
      rw [hpaged.mapped_window hlt, directory_set windowTable_ne, hframes]
    · intro f hf
      have hne : f ≠ windowTable (i * 4096 / 4096) := by
        rintro rfl
        exact hf (h.isTable_window hlt)
      rw [hpaged.mapped_window hlt, ← hframes]
      exact Function.update_of_ne hne _ _
    · intro k
      have hk : (u.mapped (tablePage (i * 4096 / 4096)) (i * 4096) F_KERN).physicalPageEntries k
          = markReserved s.physicalPageEntries i k := hu ▸ rfl
      rw [hk, markReserved]
      by_cases heq : k = i
      · subst heq
        rw [Function.update_self]
        exact .inr ⟨rfl, rfl⟩
      · rw [Function.update_of_ne heq]
        exact .inl ⟨rfl, heq⟩
    all_goals exact hu ▸ rfl

theorem Reserving.refl (h : Paged s.frames) : Reserving s s fun _ => False :=
  ⟨h, fun _ => .rfl, fun _ => .refl, rfl, fun _ _ => rfl, fun _ => .inl ⟨rfl, id⟩, rfl, rfl, rfl,
    rfl⟩

theorem Reserving.trans {s' s'' : PagingState} {marked marked' marked'' : Nat → Prop}
    (h : Reserving s s' marked) (h' : Reserving s' s'' marked')
    (hmarked : ∀ i, marked'' i ↔ marked i ∨ marked' i) : Reserving s s'' marked'' := by
  refine ⟨h'.paged, fun f => (h'.tables f).trans (h.tables f),
    fun heap => (h.changes heap).trans (h'.changes heap), h'.directory.trans h.directory,
    fun f hf => (h'.data f fun h' => hf ((h.tables f).mp h')).trans (h.data f hf), ?_,
    h'.returned.trans h.returned,
    h'.installed.trans h.installed, h'.pools.trans h.pools, h'.kernelPool.trans h.kernelPool⟩
  intro i
  rw [hmarked]
  rcases h.entries i with ⟨heq, hnot⟩ | ⟨heq, hin⟩
  · rcases h'.entries i with ⟨heq', hnot'⟩ | ⟨heq', hin'⟩
    · exact .inl ⟨heq'.trans heq, by tauto⟩
    · exact .inr ⟨by rw [heq', heq], .inr hin'⟩
  · rcases h'.entries i with ⟨heq', hnot'⟩ | ⟨heq', hin'⟩
    · exact .inr ⟨heq'.trans heq, .inl hin⟩
    · exact .inr ⟨by rw [heq', heq], .inl hin⟩

theorem Paged.reserveLoop (h : Paged s.frames) {i n : Nat} (hn : i + n ≤ 0x1000) :
    ∃ s', reserveLoop i n s = .ok ((), s') ∧ Reserving s s' fun k => i ≤ k ∧ k < i + n := by
  induction n generalizing i s with
  | zero =>
      refine ⟨s, rfl, (Reserving.refl h).trans (Reserving.refl h) fun k => ?_⟩
      rw [or_self, iff_false]
      omega
  | succ n ih =>
      obtain ⟨s₁, hrun₁, h₁⟩ := h.reservePage (show i < 0x1000 by omega)
      obtain ⟨s₂, hrun₂, h₂⟩ := @ih s₁ h₁.paged (i + 1) (by omega)
      refine ⟨s₂, ?_, h₁.trans h₂ fun k => by omega⟩
      rw [Paging.reserveLoop, Program.bind_run_of_ok hrun₁, hrun₂]

/-- The state in which `setupAvailablePages` allocates `base_pd`. -/
theorem Paged.setupAvailablePages (h : Paged s.frames) (regions : List MemoryMapEntry) :
    ∃ u, setupAvailablePages regions s = setupBasePd u ∧
      u.physicalPageEntries = reservedTable regions s.physicalPageEntries ∧
      ∃ s₁, s₁.frames = s.frames ∧ s₁.returned = s.returned ∧ s₁.installed = s.installed ∧
        s₁.pools = s.pools ∧ s₁.kernelPool = s.kernelPool ∧ Reserving s₁ u ReservedEntry := by
  generalize hs₁ : ({ s with
    pagecount := countPages regions
    physicalPageEntries := fillTable regions 0 s.physicalPageEntries } : PagingState) = s₁
  have hframes : s₁.frames = s.frames := hs₁ ▸ rfl
  have hentries : s₁.physicalPageEntries = fillTable regions 0 s.physicalPageEntries := hs₁ ▸ rfl
  have hpaged : Paged s₁.frames := hframes ▸ h
  obtain ⟨s₂, hrun₂, h₂⟩ := hpaged.reserveLoop (show 0 + 32 ≤ 0x1000 by decide)
  obtain ⟨u, hrun₃, h₃⟩ := h₂.paged.reservePage (show 0xb8000 / PGSIZE < 0x1000 by decide)
  have hall : Reserving s₁ u ReservedEntry := by
    refine h₂.trans h₃ fun k => ?_
    unfold ReservedEntry
    omega
  refine ⟨u, ?_, ?_, s₁, hframes, hs₁ ▸ rfl, hs₁ ▸ rfl, hs₁ ▸ rfl, hs₁ ▸ rfl, hall⟩
  · rw [Paging.setupAvailablePages, Program.bind_run_of_ok (assign_run _), hs₁,
      Program.bind_run_of_ok hrun₂, Program.bind_run_of_ok hrun₃]
  · funext i
    unfold reservedTable
    rw [← hentries]
    rcases hall.entries i with ⟨heq, hnot⟩ | ⟨heq, hin⟩
    · rw [if_neg hnot, heq]
    · rw [if_pos hin, heq]

end Reserve

end NickOS3.Paging
