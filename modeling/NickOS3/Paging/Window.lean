import NickOS3.Paging.Boot
import NickOS3.Paging.Tables
import Mathlib.Logic.Relation

/-!
# The kernel's window

The boot code maps the first 24 MiB of physical memory at `0xC0000000`. As long as the
tables of this window stay as they are, the kernel reaches every page table in these 24 MiB.
What the allocator does to memory is made of four kinds of changes, and each of them keeps
the window.
-/

namespace NickOS3.Paging

/-- The frames of the window. -/
def windowFrames : Nat := 0x1800

/-- The first page of the window. -/
def kernelPage : Nat := 0xC0000

/-- The table of the window for a frame. -/
def windowTable (frame : Nat) : Nat := 0x1400 + frame / 1024

/-- A frame that is the directory or a table under it. -/
def Frames.IsTable (m : Frames) (frame : Nat) : Prop :=
  frame = directoryFrame ∨ ∃ slot, m.HasTable slot ∧ m.table slot = frame

/-- The window is mapped, all page tables lie in it, and no frame serves twice. -/
structure Paged (m : Frames) : Prop where
  slots : ∀ f < windowFrames,
    m.HasTable (768 + f / 1024) ∧ m.table (768 + f / 1024) = windowTable f
  entries : ∀ f < windowFrames, present (m (windowTable f) (f % 1024)) = true ∧
    baseAddr (m (windowTable f) (f % 1024)) = f
  high : ∀ slot, 774 ≤ slot → ¬ m.HasTable slot
  low : ∀ slot, m.HasTable slot → m.table slot < windowFrames
  apart : ∀ slot, m.HasTable slot → m.table slot ≠ directoryFrame
  distinct : ∀ slot slot', m.HasTable slot → m.HasTable slot' →
    m.table slot = m.table slot' → slot = slot'

/-- The changes the allocator makes to memory: a word of a frame that is no table, an entry of
the window rewritten, the entry of a heap page, and a new table for heap pages. -/
inductive Change (heap : Nat → Prop) (m : Frames) : Frames → Prop
  | data {frame index word : Nat} (hframe : ¬ m.IsTable frame) :
      Change heap m (m.set frame index word)
  | window {f word : Nat} (hf : f < windowFrames) (hpresent : present word = true)
      (hbase : baseAddr word = f) : Change heap m (m.set (windowTable f) (f % 1024) word)
  | entry {page word : Nat} (hheap : heap page) (hpage : page < kernelPage)
      (hslot : m.HasTable (slotOf page)) :
      Change heap m (m.set (m.table (slotOf page)) (indexOf page) word)
  | table {slot t word : Nat} (hslot : slot < 768) (habsent : ¬ m.HasTable slot)
      (ht : t < windowFrames) (hfresh : ¬ m.IsTable t) (hpresent : present word = true)
      (hbase : baseAddr word = t) : Change heap m (m.set directoryFrame slot word)

/-- Any number of changes. -/
def Changes (heap : Nat → Prop) : Frames → Frames → Prop := Relation.ReflTransGen (Change heap)

section Window

variable {m m' : Frames} {f : Nat}

theorem tablePage_window (hf : f < windowFrames) : tablePage f = kernelPage + f := by
  rw [tablePage_eq]
  unfold kernelPage
  unfold windowFrames at hf
  omega

theorem slotOf_window (hf : f < windowFrames) : slotOf (tablePage f) = 768 + f / 1024 := by
  rw [tablePage_window hf]
  unfold slotOf kernelPage
  omega

theorem indexOf_window (hf : f < windowFrames) : indexOf (tablePage f) = f % 1024 := by
  rw [tablePage_window hf]
  unfold indexOf kernelPage
  omega

theorem windowTable_ne : windowTable f ≠ directoryFrame := by
  unfold windowTable directoryFrame
  omega

theorem Paged.hasTable_window (h : Paged m) (hf : f < windowFrames) :
    m.HasTable (slotOf (tablePage f)) := by
  rw [slotOf_window hf]
  exact (h.slots f hf).1

theorem Paged.table_window (h : Paged m) (hf : f < windowFrames) :
    m.table (slotOf (tablePage f)) = windowTable f := by
  rw [slotOf_window hf]
  exact (h.slots f hf).2

/-- Every frame of the window is mapped at its page. -/
theorem Paged.frameOf_window (h : Paged m) (hf : f < windowFrames) :
    frameOf m (tablePage f) = some f := by
  have hentry := h.entries f hf
  rw [frameOf, walk_of_present (h.hasTable_window hf).2 (h.table_window hf)
    (by rw [indexOf_window hf]) hentry.1]
  simp [hentry.2]

theorem Paged.isTable_window (h : Paged m) (hf : f < windowFrames) :
    m.IsTable (windowTable f) :=
  .inr ⟨_, (h.slots f hf).1, (h.slots f hf).2⟩

theorem Paged.tables (h : Paged m) : Tables m where
  directory := by
    rw [directoryPage_eq]
    exact h.frameOf_window (by decide)
  reachable slot hslot := h.frameOf_window (h.low slot hslot)
  apart := h.apart
  distinct := h.distinct

/-- Tables are sound where the directory stays and the window's entries do. -/
theorem Paged.congr (h : Paged m)
    (hdirectory : ∀ slot, m' directoryFrame slot = m directoryFrame slot)
    (hentries : ∀ f < windowFrames, present (m' (windowTable f) (f % 1024)) = true ∧
      baseAddr (m' (windowTable f) (f % 1024)) = f) : Paged m' := by
  have hhas : ∀ slot, m'.HasTable slot ↔ m.HasTable slot := by
    intro slot
    unfold Frames.HasTable
    rw [hdirectory]
  have htable : ∀ slot, m'.table slot = m.table slot := by
    intro slot
    unfold Frames.table
    rw [hdirectory]
  constructor
  · intro f hf
    rw [hhas, htable]
    exact h.slots f hf
  · exact hentries
  · intro slot hslot
    rw [hhas]
    exact h.high slot hslot
  · intro slot hslot
    rw [hhas] at hslot
    rw [htable]
    exact h.low slot hslot
  · intro slot hslot
    rw [hhas] at hslot
    rw [htable]
    exact h.apart slot hslot
  · intro slot slot' hslot hslot' heq
    rw [hhas] at hslot hslot'
    rw [htable, htable] at heq
    exact h.distinct slot slot' hslot hslot' heq

theorem not_hasTable_of_lt (h : Paged m) {slot : Nat} (hslot : slot < 768) (hf : f < windowFrames)
    (hhas : m.HasTable slot) : windowTable f ≠ m.table slot := by
  intro heq
  have := h.distinct _ _ (h.slots f hf).1 hhas ((h.slots f hf).2.trans heq)
  omega

end Window

section Changes

variable {heap : Nat → Prop} {m m' : Frames} {f page : Nat}

/-- A new table under an absent entry below the window. -/
theorem Paged.installed (h : Paged m) {slot word : Nat} (hslot : slot < 768)
    (habsent : ¬ m.HasTable slot) (ht : baseAddr word < windowFrames)
    (hfresh : ¬ m.IsTable (baseAddr word)) (hpresent : present word = true) :
    Paged (m.set directoryFrame slot word) := by
  have hhas : ∀ x, (m.set directoryFrame slot word).HasTable x ↔ m.HasTable x ∨ x = slot :=
    fun _ => hasTable_install (by omega) hpresent
  have htable : ∀ x, (m.set directoryFrame slot word).table x
      = if x = slot then baseAddr word else m.table x := fun _ => table_install
  have hold : ∀ x, m.HasTable x → x ≠ slot := by
    rintro x hx rfl
    exact habsent hx
  have hnew : ∀ x, m.HasTable x → m.table x ≠ baseAddr word :=
    fun x hx heq => hfresh (.inr ⟨x, hx, heq⟩)
  constructor
  · intro f hf
    rw [hhas, htable, if_neg (by omega)]
    exact ⟨.inl (h.slots f hf).1, (h.slots f hf).2⟩
  · intro f hf
    rw [Frames.set_apply, if_neg fun heq => windowTable_ne heq.1]
    exact h.entries f hf
  · intro x hx
    rw [hhas]
    rintro (hold' | rfl)
    · exact h.high x hx hold'
    · omega
  · intro x hx
    rw [htable]
    split
    · exact ht
    · exact h.low x (((hhas x).mp hx).resolve_right ‹_›)
  · intro x hx
    rw [htable]
    split
    · exact fun heq => hfresh (.inl heq)
    · exact h.apart x (((hhas x).mp hx).resolve_right ‹_›)
  · intro x y hx hy heq
    rw [htable, htable] at heq
    rcases (hhas x).mp hx with hx' | rfl
    · rcases (hhas y).mp hy with hy' | rfl
      · rw [if_neg (hold x hx'), if_neg (hold y hy')] at heq
        exact h.distinct x y hx' hy' heq
      · rw [if_neg (hold x hx'), if_pos rfl] at heq
        exact absurd heq (hnew x hx')
    · rcases (hhas y).mp hy with hy' | rfl
      · rw [if_pos rfl, if_neg (hold y hy')] at heq
        exact absurd heq.symm (hnew y hy')
      · rfl

/-- Every change keeps the window. -/
theorem Change.paged (hchange : Change heap m m') (h : Paged m) : Paged m' := by
  cases hchange with
  | data hframe =>
      have hdirectory : ∀ frame, ¬ m.IsTable frame → frame ≠ directoryFrame :=
        fun frame hframe heq => hframe (.inl heq)
      apply h.congr (directory_set (hdirectory _ hframe))
      intro f hf
      rw [Frames.set_apply, if_neg]
      · exact h.entries f hf
      · rintro ⟨heq, _⟩
        exact hframe (heq ▸ h.isTable_window hf)
  | @window f' word hf' hpresent hbase =>
      apply h.congr (directory_set windowTable_ne)
      intro f hf
      rw [Frames.set_apply]
      split
      · rename_i heq
        unfold windowTable at heq
        obtain rfl : f = f' := by omega
        exact ⟨hpresent, hbase⟩
      · exact h.entries f hf
  | entry hheap hpage hslot =>
      apply h.congr (directory_set (h.apart _ hslot))
      intro f hf
      rw [Frames.set_apply, if_neg]
      · exact h.entries f hf
      · rintro ⟨heq, _⟩
        refine not_hasTable_of_lt h ?_ hf hslot heq
        unfold kernelPage at hpage
        unfold slotOf
        omega
  | table hslot habsent ht hfresh hpresent hbase =>
      subst hbase
      exact h.installed hslot habsent ht hfresh hpresent

theorem Changes.paged (hchanges : Changes heap m m') (h : Paged m) : Paged m' := by
  induction hchanges with
  | refl => exact h
  | tail _ hchange ih => exact hchange.paged ih

/-- A change leaves the translation of a mapped page alone, unless it is one of the heap
pages or lies in the window. -/
theorem Change.walk (hchange : Change heap m m') (h : Paged m) (hpage : page < kernelPage)
    (hheap : ¬ heap page) (hslot : m.HasTable (slotOf page)) : walk m' page = walk m page := by
  have hlow : slotOf page < 768 := by
    unfold kernelPage at hpage
    unfold slotOf
    omega
  cases hchange with
  | data hframe =>
      apply walk_set fun heq => hframe (.inl heq)
      intro _ heq
      exact absurd (.inr ⟨_, hslot, heq⟩) hframe
  | window hf hpresent hbase =>
      apply walk_set windowTable_ne
      intro _ heq
      exact absurd heq.symm (not_hasTable_of_lt h hlow hf hslot)
  | entry hheap' hpage' hslot' =>
      apply h.tables.walk_mapped hslot'
      · unfold kernelPage at hpage
        omega
      · rintro rfl
        exact hheap hheap'
  | table hslot' habsent _ _ _ _ => exact h.tables.walk_installed habsent hslot

/-- A change takes no table away. -/
theorem Change.hasTable (hchange : Change heap m m') (h : Paged m) {slot : Nat}
    (hslot : m.HasTable slot) : m'.HasTable slot := by
  cases hchange with
  | data hframe =>
      rw [hasTable_set fun heq => hframe (.inl heq)]
      exact hslot
  | window hf hpresent hbase =>
      rw [hasTable_set windowTable_ne]
      exact hslot
  | entry hheap hpage hslot' =>
      rw [hasTable_set (h.apart _ hslot')]
      exact hslot
  | table hslot' habsent ht hfresh hpresent hbase =>
      rw [hasTable_install (by omega) hpresent]
      exact .inl hslot

theorem Changes.hasTable (hchanges : Changes heap m m') (h : Paged m) {slot : Nat}
    (hslot : m.HasTable slot) : m'.HasTable slot := by
  have hboth : m'.HasTable slot ∧ Paged m' := by
    induction hchanges with
    | refl => exact ⟨hslot, h⟩
    | tail _ hchange ih => exact ⟨hchange.hasTable ih.2 ih.1, hchange.paged ih.2⟩
  exact hboth.1

/-- A frame mapped at a page that is not a heap page stays mapped there. -/
theorem Changes.frameOf (hchanges : Changes heap m m') (h : Paged m) (hpage : page < kernelPage)
    (hheap : ¬ heap page) {frame : Nat} (hframe : frameOf m page = some frame) :
    frameOf m' page = some frame := by
  have hslot : m.HasTable (slotOf page) := by
    apply hasTable_of_frameOf _ hframe
    unfold kernelPage at hpage
    omega
  have hboth : Paging.frameOf m' page = some frame ∧ m'.HasTable (slotOf page) ∧ Paged m' := by
    induction hchanges with
    | refl => exact ⟨hframe, hslot, h⟩
    | tail _ hchange ih =>
        obtain ⟨hframe', hslot', h'⟩ := ih
        refine ⟨?_, hchange.hasTable h' hslot', hchange.paged h'⟩
        rw [Paging.frameOf, hchange.walk h' hpage hheap hslot']
        exact hframe'
  exact hboth.1

end Changes

/-! ## The boot code's tables -/

section Boot

variable (m : Frames)

theorem present_three (base : Nat) : present (base * 4096 + 3) = true := by
  rw [present_iff]
  omega

theorem baseAddr_three {base : Nat} (h : base < 1048576) : baseAddr (base * 4096 + 3) = base := by
  unfold baseAddr
  omega

theorem bootMemory_directory {slot : Nat} (hslot : slot < 1024) :
    bootMemory m directoryFrame slot
      = if slot < 6 then (0x1100 + slot) * 4096 + 3
        else if 768 ≤ slot ∧ slot < 774 then (0x1400 + (slot - 768)) * 4096 + 3 else 0 := by
  rw [bootMemory_apply m _ _ hslot]
  exact if_pos rfl

theorem bootMemory_hasTable (slot : Nat) :
    (bootMemory m).HasTable slot ↔ slot < 6 ∨ 768 ≤ slot ∧ slot < 774 := by
  unfold Frames.HasTable
  constructor
  · rintro ⟨hslot, hpresent⟩
    rw [bootMemory_directory m hslot] at hpresent
    by_contra hne
    rw [if_neg (by omega), if_neg (by omega)] at hpresent
    exact absurd hpresent (by decide)
  · intro h
    have hslot : slot < 1024 := by omega
    refine ⟨hslot, ?_⟩
    rw [bootMemory_directory m hslot]
    rcases h with h | h
    · rw [if_pos h]
      exact present_three _
    · rw [if_neg (by omega), if_pos h]
      exact present_three _

theorem bootMemory_table {slot : Nat} (h : (bootMemory m).HasTable slot) :
    (bootMemory m).table slot = if slot < 6 then 0x1100 + slot else 0x1400 + (slot - 768) := by
  have hcases := (bootMemory_hasTable m slot).mp h
  unfold Frames.table
  rw [bootMemory_directory m h.1]
  split
  · exact baseAddr_three (by omega)
  · rw [if_pos (by omega)]
    exact baseAddr_three (by omega)

/-- The boot code maps the window. -/
theorem paged_bootMemory : Paged (bootMemory m) := by
  have hlow : ∀ slot, (bootMemory m).HasTable slot →
      (bootMemory m).table slot = (if slot < 6 then 0x1100 + slot else 0x1400 + (slot - 768)) ∧
      (slot < 6 ∨ 768 ≤ slot ∧ slot < 774) :=
    fun slot h => ⟨bootMemory_table m h, (bootMemory_hasTable m slot).mp h⟩
  constructor
  · intro f hf
    unfold windowFrames at hf
    have h : (bootMemory m).HasTable (768 + f / 1024) := by
      rw [bootMemory_hasTable]
      omega
    refine ⟨h, ?_⟩
    rw [bootMemory_table m h, if_neg (by omega), windowTable]
    omega
  · intro f hf
    unfold windowFrames at hf
    have hword : bootMemory m (windowTable f) (f % 1024) = f * 4096 + 3 := by
      unfold windowTable
      rw [bootMemory_apply m _ _ (Nat.mod_lt _ (by decide)), if_neg (by omega),
        if_neg (by omega), if_pos (by omega)]
      omega
    rw [hword]
    exact ⟨present_three f, baseAddr_three (by omega)⟩
  · intro slot hslot hhas
    have := (bootMemory_hasTable m slot).mp hhas
    omega
  · intro slot hhas
    obtain ⟨htable, hslot⟩ := hlow slot hhas
    rw [htable]
    unfold windowFrames
    split <;> omega
  · intro slot hhas
    obtain ⟨htable, hslot⟩ := hlow slot hhas
    rw [htable]
    unfold directoryFrame
    split <;> omega
  · intro slot slot' hhas hhas' heq
    obtain ⟨htable, hslot⟩ := hlow slot hhas
    obtain ⟨htable', hslot'⟩ := hlow slot' hhas'
    rw [htable, htable'] at heq
    split at heq <;> split at heq <;> omega

end Boot

end NickOS3.Paging
