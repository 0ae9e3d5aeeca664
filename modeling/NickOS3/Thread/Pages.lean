import NickOS3.Paging.Ascending
import NickOS3.Thread.Transparency

/-!
# The pages of the threads

`thread_create` on top of the page allocator, with interrupts off while it runs. It clears four
pages, its own and three behind it; where frames are handed out in ascending order these are
nobody's yet.
-/

namespace NickOS3.Thread

open Lib Foundation
open Paging (AscendingMap Ascended PagingRun pagingMachine pallocKern)

/-- `F_ASSERT | F_KERN | F_ZERO | F_VERBOSE` -/
def THREAD_FLAGS : Nat := 0x87

/-- The page allocator, and the threads on its pages. -/
structure PagedSystem where
  paging : PagingRun
  system : ThreadSystem

/-- A call of the page allocator; `thread_create`, which nobody interrupts; and what else a thread
does. -/
inductive PagedAction
  | page (c : Paging.Call)
  | create (id pageDirectory pool function aux : Nat)
  | thread (a : SwitchAction)

namespace PagedSystem

/-- `palloc_kern` is called by `setupAvailablePages` and by `thread_create` only. -/
def Step (code : Code) (k : PagedSystem) : PagedAction → PagedSystem → Prop
  | .page c, k' =>
      (∀ numPages flags, c ≠ .pallocKern numPages flags) ∧ k.paging.Step c k'.paging ∧
        k'.system = k.system
  | .create id pageDirectory pool function aux, k' =>
      ∃ new, k.paging.Step (.pallocKern 1 THREAD_FLAGS) k'.paging ∧
        pallocKern 1 THREAD_FLAGS k.paging.state = .ok (new, k'.paging.state) ∧
        function < 4294967296 ∧ aux < 4294967296 ∧
        k.system.advance code (.create new id pageDirectory pool function aux) = some k'.system
  | .thread a, k' =>
      (∀ new id pageDirectory pool function aux,
        a ≠ .create new id pageDirectory pool function aux) ∧
        k.system.Enabled code a ∧ k.system.advance code a = some k'.system ∧ k'.paging = k.paging

/-- The memory map ascends, no heap page is mapped over the pages of the threads, and no stack
reaches into its thread structure. -/
def Fits (k : PagedSystem) : PagedAction → Prop
  | .page (.setupAvailablePages regions) => AscendingMap regions
  | .page (.pallocHeap _ _ _) => False
  | .page _ => True
  | .create _ _ _ _ _ => True
  | .thread a => k.system.Safe a

end PagedSystem

/-- The page allocator and the threads together, from the boot thread on. -/
def pagedMachine (code : Code) : Machine PagedSystem PagedAction where
  start k := pagingMachine.start k.paging ∧ k.system.Start ∧ k.system.running = bootPage
  step := PagedSystem.Step code

section Pages

variable {code : Code} {s s' : ThreadSystem} {k k' : PagedSystem}

theorem ThreadSystem.advance_threads {a : SwitchAction}
    (hcreate : ∀ new id pageDirectory pool function aux,
      a ≠ .create new id pageDirectory pool function aux)
    (h : s.advance code a = some s') : s'.threads = s.threads := by
  obtain ⟨mid, hnext, rfl⟩ := Option.map_eq_some_iff.mp h
  cases a with
  | create new id pageDirectory pool function aux => exact absurd rfl (hcreate _ _ _ _ _ _)
  | _ =>
      obtain rfl := Option.some.inj hnext
      rfl

theorem ThreadSystem.advance_create_threads {new id pageDirectory pool function aux : Nat}
    (h : s.advance code (.create new id pageDirectory pool function aux) = some s') :
    s'.threads = new :: s.threads := by
  obtain ⟨mid, hnext, rfl⟩ := Option.map_eq_some_iff.mp h
  obtain ⟨m, -, rfl⟩ := Option.map_eq_some_iff.mp hnext
  rfl

/-- Pages in the kernel's half, each below the one that was created after it. -/
structure Climbing (threads : List Nat) : Prop where
  high : ∀ t ∈ threads, 0xC0000000 ≤ t
  ascending : threads.Pairwise fun t u => u < t

/-- What `thread_create` clears is behind all other threads. -/
theorem Climbing.not_cleared {threads : List Nat} (h : Climbing threads) {new : Nat}
    (hnew : new < 4294967296) (habove : ∀ t ∈ threads, t < new) :
    ∀ t ∈ threads, ¬ Lib.offset new t < 4 * PGSIZE := by
  intro t ht
  have hlow := h.high t ht
  have hlt := habove t ht
  unfold Lib.offset u32 PGSIZE
  omega

/-- The threads are safe, and climb up the table of frames. -/
structure PagedSystem.Climbs (code : Code) (k : PagedSystem) : Prop where
  reach : (switchMachine code).Reach ThreadSystem.Safe k.system
  climbing : Climbing k.system.threads
  pages : k.paging.Booted ∧ k.system.threads = [bootPage] ∨
    k.paging.stage ≠ .booted ∧ Ascended k.system.threads k.paging.state

namespace PagedSystem.Climbs

theorem start (h : (pagedMachine code).start k) : k.Climbs code := by
  obtain ⟨hpaging, hsystem, hrunning⟩ := h
  have hthreads : k.system.threads = [bootPage] := by rw [hsystem.threads, hrunning]
  refine ⟨.start hsystem, ?_, .inl ⟨hpaging, hthreads⟩⟩
  rw [hthreads]
  refine ⟨fun t ht => ?_, List.pairwise_singleton _ _⟩
  obtain rfl := List.mem_singleton.mp ht
  decide

/-- The page allocator has no thread's page to give. -/
theorem page (h : k.Climbs code) {c : Paging.Call} (hfits : k.Fits (.page c))
    (hstep : k.Step code (.page c) k') : k'.Climbs code := by
  obtain ⟨-, hcall, hsystem⟩ := hstep
  refine ⟨hsystem ▸ h.reach, hsystem ▸ h.climbing, .inr ?_⟩
  rw [hsystem]
  rcases hcall.setup_or_later with ⟨regions, rfl, -, hbooted, hnext, -⟩ | ⟨hc, hlater, hnext, -⟩
  · rcases h.pages with ⟨⟨-, -, hboot⟩, hthreads⟩ | ⟨hnot, -⟩
    · obtain ⟨u, hrun, hprepared⟩ := hboot.prepared regions
      have hascended : Ascended [bootPage] u := by
        refine ⟨hprepared.ascending hfits, fun page hpage i hi => ?_⟩
        obtain rfl := List.mem_singleton.mp hpage
        have hlow := ((hprepared.ascending hfits).page i hi).2.1
        unfold bootPage
        omega
      rw [hthreads]
      refine ⟨by rw [hnext]; decide, ?_⟩
      exact (Paging.frameStable_ascended _).setupBasePd u hascended () _ (hrun ▸ hcall.returns)
    · exact absurd hbooted hnot
  · rcases h.pages with ⟨hbooted, -⟩ | ⟨-, hascended⟩
    · exact absurd hbooted.1 hlater
    · exact ⟨hnext, (Paging.frameStable_ascended _).call hc _ hascended () _ hcall.returns⟩

/-- A new thread's page is above all others. -/
theorem create (h : k.Climbs code) {id pageDirectory pool function aux : Nat}
    (hstep : k.Step code (.create id pageDirectory pool function aux) k') : k'.Climbs code := by
  obtain ⟨new, hcall, hrun, hfunction, haux, hadvance⟩ := hstep
  have hthreads := ThreadSystem.advance_create_threads hadvance
  rcases hcall.setup_or_later with ⟨regions, hsetup, -⟩ | ⟨-, hlater, hnext, -⟩
  · cases hsetup
  rcases h.pages with ⟨hbooted, -⟩ | ⟨-, hascended⟩
  · exact absurd hbooted.1 hlater
  obtain ⟨hascended', haligned, hlow, hhigh, habove⟩ := hascended.pallocKern (by decide) hrun
  have hfresh : new ∉ k.system.threads := fun hmem => Nat.lt_irrefl _ (habove new hmem)
  have henabled : k.system.Enabled code (.create new id pageDirectory pool function aux) :=
    ⟨haligned, by omega, hfresh, hfunction, haux⟩
  have hsafe : k.system.Safe (.create new id pageDirectory pool function aux) :=
    h.climbing.not_cleared hhigh habove
  refine ⟨.step h.reach hsafe ⟨henabled, hadvance⟩, ?_, .inr ⟨hnext, ?_⟩⟩
  · rw [hthreads]
    refine ⟨fun t ht => ?_, List.pairwise_cons.mpr ⟨habove, h.climbing.ascending⟩⟩
    rcases List.mem_cons.mp ht with rfl | ht
    · omega
    · exact h.climbing.high t ht
  · rw [hthreads]
    exact hascended'

theorem thread (h : k.Climbs code) {a : SwitchAction} (hfits : k.Fits (.thread a))
    (hstep : k.Step code (.thread a) k') : k'.Climbs code := by
  obtain ⟨hcreate, henabled, hadvance, hpaging⟩ := hstep
  have hthreads := ThreadSystem.advance_threads hcreate hadvance
  refine ⟨.step h.reach hfits ⟨henabled, hadvance⟩, ?_, ?_⟩
  · rw [hthreads]
    exact h.climbing
  · rw [hthreads, hpaging]
    exact h.pages

end PagedSystem.Climbs

theorem climbs_of_fits (run : (pagedMachine code).Reach PagedSystem.Fits k) : k.Climbs code := by
  refine run.invariant (fun k h => .start h) fun k a k' h hfits hstep => ?_
  cases a with
  | page c => exact h.page hfits hstep
  | create id pageDirectory pool function aux => exact h.create hstep
  | thread a => exact h.thread hfits hstep

/-- On an ascending memory map no thread is ever created in front of another one: every thread's
page lies above those of the threads before it, and all of them go on as if they had not been
switched away from. -/
theorem threads_kept_on_ascending_maps (run : (pagedMachine code).Reach PagedSystem.Fits k) :
    k.system.threads.Pairwise (fun t u => u < t) ∧ k.system.kept := by
  have h := climbs_of_fits run
  exact ⟨h.climbing.ascending, (sound_of_safe h.reach).2⟩

end Pages

/-- `setupAvailablePages`, and a thread on the page behind `base_pd`. -/
theorem threads_kept_on_plain_map : ∃ k : PagedSystem, k.system.threads = [0xC0121000, bootPage] ∧
    k.system.threads.Pairwise (fun t u => u < t) ∧ k.system.kept := by
  obtain ⟨s, s', hsetup, hpage⟩ := Paging.pallocKern_plain
  obtain ⟨m, hcreate, -⟩ := threadCreate_run linkedCode 0xC0121000 2 0 0 16 32 bootMemory
    (by decide) (by decide) (by decide)
  obtain ⟨created, hadvance⟩ : ∃ created, bootSystem.advance linkedCode
      (.create 0xC0121000 2 0 0 16 32) = some created := ⟨_, ThreadSystem.advance_create hcreate⟩
  have hthreads : created.threads = [0xC0121000, bootPage] :=
    ThreadSystem.advance_create_threads hadvance
  have hstart : (pagedMachine linkedCode).start ⟨⟨Paging.blankBoot, .booted, []⟩, bootSystem⟩ :=
    ⟨⟨rfl, rfl, Paging.atBoot_blankBoot⟩, bootSystem_start, rfl⟩
  have hfirst : PagedSystem.Step linkedCode ⟨⟨Paging.blankBoot, .booted, []⟩, bootSystem⟩
      (.page (.setupAvailablePages Paging.plainMap))
      ⟨⟨s, .available, Paging.plainMap⟩, bootSystem⟩ := by
    refine ⟨fun _ _ => Paging.Call.noConfusion, ⟨?_, rfl, hsetup, rfl⟩, rfl⟩
    intro regions heq
    cases heq
    exact Paging.usableMap_plain
  have hsecond : PagedSystem.Step linkedCode ⟨⟨s, .available, Paging.plainMap⟩, bootSystem⟩
      (.create 2 0 0 16 32) ⟨⟨s', .available, Paging.plainMap⟩, created⟩ := by
    have hcall : (Paging.Call.pallocKern 1 THREAD_FLAGS).run s = .ok ((), s') :=
      Program.bind_run_of_ok hpage
    exact ⟨0xC0121000, ⟨fun _ => Paging.Call.noConfusion, rfl, hcall, rfl⟩, hpage, by decide,
      by decide, hadvance⟩
  have hfits : PagedSystem.Fits ⟨⟨Paging.blankBoot, .booted, []⟩, bootSystem⟩
      (.page (.setupAvailablePages Paging.plainMap)) := Paging.ascendingMap_plain
  have run : (pagedMachine linkedCode).Reach PagedSystem.Fits
      ⟨⟨s', .available, Paging.plainMap⟩, created⟩ :=
    .step (.step (.start hstart) hfits hfirst) (a := .create 2 0 0 16 32) trivial hsecond
  exact ⟨_, hthreads, threads_kept_on_ascending_maps run⟩

end NickOS3.Thread
