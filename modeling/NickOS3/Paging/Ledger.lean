import NickOS3.Paging.BasePd

/-!
# The frames that are handed out

Which memory maps lead to a sound table of frames, and the ledger of the frames that
`get_next_free_physical_page` has returned.
-/

namespace NickOS3.Paging

open Foundation Program

/-- The frames the kernel depends on. -/
def KernelFrame (frame : Nat) : Prop :=
  frame < 0x20 ∨ frame = 0xB8 ∨ 0x1100 ≤ frame ∧ frame ≤ 0x1117 ∨
    0x1400 ≤ frame ∧ frame ≤ 0x1417

instance (frame : Nat) : Decidable (KernelFrame frame) :=
  inferInstanceAs (Decidable (_ ∨ _))

/-- An aligned address with its page inside a region and no frame of the kernel's. -/
structure Allocatable (regions : List MemoryMapEntry) (address : Nat) : Prop where
  aligned : address % 4096 = 0
  inside : ∃ r ∈ regions, r.base ≤ address ∧ address + 4096 ≤ r.base + r.length
  apart : ¬ KernelFrame (address / 4096)

/-- Every address that was returned is allocatable and was returned once. -/
structure FramesSound (regions : List MemoryMapEntry) (returned : List Nat) : Prop where
  allocatable : ∀ address ∈ returned, address ≠ NO_ADDR → Allocatable regions address
  once : ∀ address, address ≠ NO_ADDR → returned.count address ≤ 1

/-- The pages of the table are aligned, lie below 4 GiB and are no frames of the kernel's. -/
def FramesFit (regions : List MemoryMapEntry) : Prop :=
  MapFits (fun _ r x => u32 (r.base + x * 4096) = NO_ADDR ∨
    r.base % 4096 = 0 ∧ r.base + x * 4096 < 4294967296 ∧ ¬ KernelFrame (r.base / 4096 + x)) regions

/-- What the free entries promise, with what was returned so far. -/
structure Ledger (regions : List MemoryMapEntry) (s : PagingState) : Prop where
  sound : FramesSound regions s.returned
  allocatable : ∀ i, s.Free i → s.addr i ≠ NO_ADDR → Allocatable regions (s.addr i)
  fresh : ∀ i, s.Free i → s.addr i ≠ NO_ADDR → s.addr i ∉ s.returned
  distinct : ∀ i j, s.Free i → s.Free j → s.addr i = s.addr j → s.addr i ≠ NO_ADDR → i = j

section Ledger

variable {regions : List MemoryMapEntry} {s u : PagingState}

theorem Ledger.congr (h : Ledger regions s)
    (hentries : u.physicalPageEntries = s.physicalPageEntries)
    (hreturned : u.returned = s.returned) : Ledger regions u := by
  have hfree : ∀ i, u.Free i ↔ s.Free i := by
    intro i
    unfold PagingState.Free
    rw [hentries]
  have haddr : ∀ i, u.addr i = s.addr i := by
    intro i
    unfold PagingState.addr
    rw [hentries]
  refine ⟨hreturned ▸ h.sound, ?_, ?_, ?_⟩
  · intro i hi
    rw [haddr]
    exact h.allocatable i ((hfree i).mp hi)
  · intro i hi
    rw [haddr, hreturned]
    exact h.fresh i ((hfree i).mp hi)
  · intro i j hi hj
    rw [haddr, haddr]
    exact h.distinct i j ((hfree i).mp hi) ((hfree j).mp hj)

/-- A free entry is taken. -/
theorem Ledger.take (h : Ledger regions s) {i : Nat} (hi : s.Free i) :
    Ledger regions (s.take i) := by
  have hreturned : (s.take i).returned = s.addr i :: s.returned := rfl
  refine ⟨⟨?_, ?_⟩, ?_, ?_, ?_⟩
  · intro address hmem hne
    rcases List.mem_cons.mp (hreturned ▸ hmem) with rfl | hold
    · exact h.allocatable i hi hne
    · exact h.sound.allocatable address hold hne
  · intro address hne
    rw [hreturned, List.count_cons]
    split
    · rename_i heq
      rw [beq_iff_eq] at heq
      have hnot : address ∉ s.returned := heq ▸ h.fresh i hi (heq ▸ hne)
      rw [List.count_eq_zero_of_not_mem hnot]
    · exact h.sound.once address hne
  · intro j hj hne
    rw [take_free] at hj
    rw [take_addr] at hne ⊢
    exact h.allocatable j hj.1 hne
  · intro j hj hne
    rw [take_free] at hj
    rw [take_addr] at hne ⊢
    rw [hreturned, List.mem_cons]
    rintro (heq | hold)
    · exact hj.2 (h.distinct j i hj.1 hi heq hne)
    · exact h.fresh j hj.1 hne hold
  · intro j k hj hk heq hne
    rw [take_free] at hj hk
    rw [take_addr, take_addr] at heq
    rw [take_addr] at hne
    exact h.distinct j k hj.1 hk.1 heq hne

theorem frameStable_ledger (regions : List MemoryMapEntry) : FrameStable (Ledger regions) where
  set _ _ _ _ hs := hs.congr rfl rfl
  take _ _ hi hs := hs.take (firstFree_eq_some hi)
  installed _ _ hs := hs.congr rfl rfl
  globals _ _ _ hentries hreturned _ hs := hs.congr hentries hreturned

/-- The table that `setupAvailablePages` fills from a map that fits. -/
theorem Prepared.ledger (h : Prepared regions s u) (hmap : UsableMap regions)
    (hfit : FramesFit regions) : Ledger regions u := by
  have hinside : ∀ i, u.Free i → u.addr i ≠ NO_ADDR → ∃ r x, pageAt regions i = some (r, x) ∧
      u.addr i = r.base + x * 4096 ∧ r.base % 4096 = 0 ∧ ¬ KernelFrame (r.base / 4096 + x) := by
    intro i hi hne
    obtain ⟨hnot, r, x, hpage, haddr⟩ := h.free i hi
    rcases hfit i hi.1 hnot r x hpage with hno | ⟨haligned, hlt, hkernel⟩
    · exact absurd (haddr.trans hno) hne
    · exact ⟨r, x, hpage, haddr.trans (u32_of_lt hlt), haligned, hkernel⟩
  refine ⟨?_, ?_, ?_, ?_⟩
  · rw [h.returned]
    exact ⟨fun _ hmem => absurd hmem List.not_mem_nil, fun _ _ => Nat.zero_le _⟩
  · intro i hi hne
    obtain ⟨r, x, hpage, haddr, haligned, hkernel⟩ := hinside i hi hne
    obtain ⟨hmem, hle⟩ := pageAt_mem hpage
    rw [haddr]
    refine ⟨by omega, ⟨r, hmem, by omega, by omega⟩, ?_⟩
    rw [Nat.add_mul_div_right _ _ (by decide)]
    exact hkernel
  · intro i _ _
    rw [h.returned]
    exact List.not_mem_nil
  · intro i j hi hj heq hne
    obtain ⟨r, x, hpage, haddr, haligned, _⟩ := hinside i hi hne
    obtain ⟨r', x', hpage', haddr', haligned', _⟩ := hinside j hj (heq ▸ hne)
    by_contra hdiff
    apply frame_ne hmap.disjoint hpage hpage' hdiff haligned haligned'
    omega

end Ledger

/-! ## Runs -/

/-- The memory map fits. -/
def Call.FramesFit : Call → Prop
  | .setupAvailablePages regions => Paging.FramesFit regions
  | _ => True

/-- Every frame that is handed out in a run whose memory map fits is sound. -/
theorem frames_sound_along_fitting_runs (k : PagingRun)
    (run : pagingMachine.Reach (fun _ c => c.FramesFit) k) :
    FramesSound k.regions k.state.returned := by
  have hinv := reach_of_prepared frameStable_ledger
    (fun _ _ _ hfit hmap hprepared => hprepared.ledger hmap hfit) run
  rcases hinv with ⟨_, _, hboot⟩ | ⟨_, hledger⟩
  · rw [hboot.returned]
    exact ⟨fun _ hmem => absurd hmem List.not_mem_nil, fun _ _ => Nat.zero_le _⟩
  · exact hledger.sound

theorem framesFit_plain : FramesFit plainMap := by
  intro n _ hnot r x hpage
  obtain ⟨hbase, rfl, hlt⟩ := pageAt_plain hpage
  unfold ReservedEntry PGSIZE at hnot
  unfold KernelFrame
  rw [hbase]
  omega

theorem frames_sound_after_plain_setup : ∃ k : PagingRun, k.state.returned = [0x120000] ∧
    FramesSound k.regions k.state.returned := by
  obtain ⟨_, s', _, hrun, hreturned⟩ := setup_plain
  exact ⟨⟨s', .available, plainMap⟩, hreturned,
    frames_sound_along_fitting_runs _ (reach_setup usableMap_plain framesFit_plain hrun)⟩

/-- With 32 pages before it, the page at address 0 takes an entry that is not reserved. -/
def lowPageMap : List MemoryMapEntry := [⟨0x100000, 0x20000⟩, ⟨0, 0x1000⟩]

theorem frames_not_sound_for_every_map :
    ¬ ∀ k, pagingMachine.Reachable k → FramesSound k.regions k.state.returned := by
  intro h
  have hmap : UsableMap lowPageMap := ⟨by decide, by decide, by decide⟩
  have hfits : BasePdFits 0 := by
    refine ⟨by decide, ?_⟩
    intro f hf
    unfold Cleared at hf
    unfold windowTable
    omega
  obtain ⟨_, s', _, hrun, _, _, hreturned, _⟩ :=
    atBoot_blankBoot.setup_run lowPageMap ⟨0, 0x1000⟩ 0 (by decide) (by decide) hfits
  have hsound := h ⟨s', .available, lowPageMap⟩ (reach_setup hmap trivial hrun)
  have hmem : 0 ∈ s'.returned := by
    rw [hreturned, Nat.zero_mul]
    exact List.mem_singleton.mpr (Eq.refl 0)
  exact (hsound.allocatable 0 hmem (by decide)).apart (.inl (by decide))

end NickOS3.Paging
