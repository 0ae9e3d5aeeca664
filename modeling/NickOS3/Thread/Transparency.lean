import NickOS3.Thread.Switching

/-!
# Context switches are transparent

As long as no thread is created in front of another one, whose page `thread_create` would clear, and
no stack reaches into its thread structure: every thread goes on as if it had not been switched
away from.
-/

namespace NickOS3.Thread

open Lib Foundation

namespace ThreadSystem

/-- The running thread has its stack, the others can be returned to, and no magic number has been
overwritten. -/
structure Sound (code : Code) (s : ThreadSystem) : Prop where
  bounded : s.cpu.Bounded
  page : ∀ t ∈ s.threads, t % PGSIZE = 0 ∧ t + 4096 ≤ 4294967296
  magic : ∀ t ∈ s.threads, s.cpu.memory.word (t + 40) = T_MAGIC
  running : s.running ∈ s.threads
  esp : s.running + 44 ≤ s.cpu.regs .esp ∧ s.cpu.regs .esp < s.running + 4096
  pending : ∀ f ∈ s.frames s.running, f.Pending
  stacked : Stacked code s.running s.cpu.memory (s.cpu.regs .esp) (s.frames s.running)
  resting : ∀ t ∈ s.threads, t ≠ s.running →
    ∃ f fs, s.frames t = f :: fs ∧ Rests code t s.cpu.memory f fs

variable {code : Code} {s s' : ThreadSystem}

theorem Sound.runs (h : s.Sound code) : s.cpu.Runs s.running :=
  Cpu.runs_of (h.page _ h.running).1 (Nat.le_trans (Nat.le_add_right _ _) h.esp.1) h.esp.2
    (h.magic _ h.running)

theorem Start.sound (h : s.Start) : s.Sound code := by
  have hmem : s.running ∈ s.threads := by
    rw [h.threads]
    exact List.mem_singleton_self _
  have honly : ∀ t ∈ s.threads, t = s.running := by
    intro t ht
    rw [h.threads] at ht
    exact List.mem_singleton.mp ht
  refine ⟨h.bounded, ?_, ?_, hmem, h.esp, ?_, ?_, ?_⟩
  · intro t ht
    rw [honly t ht]
    exact h.page
  · intro t ht
    rw [honly t ht]
    exact h.magic
  · rw [h.frames]
    exact fun _ hf => absurd hf List.not_mem_nil
  · rw [h.frames]
    exact Nat.le_of_lt h.esp.2
  · exact fun t ht hne => absurd (honly t ht) hne

/-! ## C code -/

theorem Sound.act (h : s.Sound code) {c : Cpu} (henabled : s.Enabled code (.act c))
    (hsafe : s.Safe (.act c)) (hnext : s.next code (.act c) = some s') : s'.Sound code := by
  obtain ⟨hbounded, -, hhigh, hfloor, hmemory⟩ := henabled
  obtain rfl := Option.some.inj hnext
  have hframe : ∀ t ∈ s.threads, ∀ f ∈ s.frames t, ∀ x, f.bottom t ≤ x → x < f.top t →
      c.memory x = s.cpu.memory x :=
    fun t ht f hf x hlow hhigh => hmemory x ⟨t, ht, .inl ⟨f, hf, hlow, hhigh⟩⟩
  refine ⟨hbounded, h.page, ?_, h.running, ⟨hsafe, hhigh⟩, ?_, ?_, ?_⟩
  · intro t ht
    rw [← h.magic t ht]
    refine word_congr fun x hlow hhigh => hmemory x ⟨t, ht, .inr (.inr ⟨fun heq => ?_, hlow, ?_⟩)⟩
    · rw [heq]
      exact hsafe
    · omega
  · intro f hf
    obtain ⟨g, hg, rfl⟩ := List.mem_map.mp hf
    exact Frame.track_pending.mpr (h.pending g hg)
  · exact ((h.stacked.congr (hframe _ h.running)).moves hfloor).track
  · intro t ht hne
    obtain ⟨f, fs, hfs, hrests⟩ := h.resting t ht hne
    have hstack : ∀ x, t ≤ x → x < t + 4 → c.memory x = s.cpu.memory x :=
      fun x hlow hhigh => hmemory x ⟨t, ht, .inr (.inl ⟨hne, hlow, hhigh⟩)⟩
    refine ⟨f.track s.cpu.memory c.memory, fs.map (Frame.track s.cpu.memory c.memory),
      congrArg (List.map _) hfs, ?_⟩
    refine hrests.act hstack fun g hg => hframe t ht g ?_
    rw [hfs]
    exact hg

/-! ## `thread_create` -/

section Create

variable {new id pageDirectory pool function aux : Nat}

theorem Sound.create (h : s.Sound code)
    (henabled : s.Enabled code (.create new id pageDirectory pool function aux))
    (hsafe : s.Safe (.create new id pageDirectory pool function aux))
    (hnext : s.next code (.create new id pageDirectory pool function aux) = some s') :
    s'.Sound code := by
  obtain ⟨hpage, hfit, hfresh, hfunction, haux⟩ := henabled
  obtain ⟨m, hcreate, hwords, hstack, hmagic, hrest⟩ := threadCreate_run code new id pageDirectory
    pool function aux s.cpu.memory hfit hfunction haux
  obtain ⟨m', hm', rfl⟩ := Option.map_eq_some_iff.mp hnext
  obtain rfl := Option.some.inj (hcreate.symm.trans hm')
  have hsame : ∀ t ∈ s.threads, ∀ x, t ≤ x → x < t + 4096 → m x = s.cpu.memory x := by
    intro t ht x hlow hhigh
    obtain ⟨htPage, htFit⟩ := h.page t ht
    exact hrest x (by omega) (not_cleared hpage htPage (hsafe t ht) hlow hhigh)
  have hframes : ∀ t ∈ s.threads,
      Function.update s.frames new [.fresh function aux] t = s.frames t :=
    fun t ht => Function.update_of_ne (by rintro rfl; exact hfresh ht) _ _
  refine ⟨⟨h.bounded.regs, h.bounded.eip, h.bounded.cs, h.bounded.eflags⟩, ?_, ?_,
    List.mem_cons_of_mem _ h.running, h.esp, ?_, ?_, ?_⟩
  · intro t ht
    rcases List.mem_cons.mp ht with rfl | ht
    · exact ⟨hpage, hfit⟩
    · exact h.page t ht
  · intro t ht
    rcases List.mem_cons.mp ht with rfl | ht
    · exact hmagic
    · rw [← h.magic t ht]
      exact word_congr fun x hlow hhigh => hsame t ht x (by omega) (by omega)
  · dsimp only
    rw [hframes _ h.running]
    exact h.pending
  · have hesp := h.esp
    dsimp only
    rw [hframes _ h.running]
    exact h.stacked.of_page fun x hlow hhigh => hsame _ h.running x (by omega) hhigh
  · intro t ht hne
    dsimp only
    rcases List.mem_cons.mp ht with rfl | ht
    · refine ⟨.fresh function aux, [], Function.update_self _ _ _, ?_⟩
      refine ⟨not_false, fun _ hg => absurd hg List.not_mem_nil, hstack, trivial, ?_⟩
      exact ⟨by unfold Frame.bottom; dsimp only; omega, trivial, hwords, Nat.le_refl _⟩
    · obtain ⟨f, fs, hfs, hrests⟩ := h.resting t ht hne
      exact ⟨f, fs, (hframes t ht).trans hfs, hrests.of_page (hsame t ht)⟩

end Create

/-! ## `context_switch` -/

section Switch

variable {next back : Nat}

/-- Behind the first half of `context_switch`, it can return to any thread. -/
theorem Sound.suspended (h : s.Sound code) (henabled : s.Enabled code (.switch next back))
    (hsafe : s.Safe (.switch next back)) :
    (∀ x ∈ s.cpu.trace (.call code.contextSwitch back :: saveRoutine), x.Runs s.running) ∧
      (s.save code back).regs .eax = s.running ∧ (s.save code back).regs .ecx = next ∧
      (s.save code back).regs .edx = 0 ∧
      ∀ t ∈ s.threads, (s.save code back).memory.word (t + 40) = T_MAGIC ∧
        ∃ f fs, s.suspended back t = f :: fs ∧ Rests code t (s.save code back).memory f fs := by
  obtain ⟨-, hcur, hnext, -, hargs, hback, hfirst⟩ := henabled
  unfold Safe at hsafe
  dsimp only at hsafe
  have hesp := h.esp
  obtain ⟨hpage, hfit⟩ := h.page _ h.running
  obtain ⟨htrace, heax, hecx, hedx, hwords, hstack, hrest⟩ := save_run
    code.contextSwitch back hpage hfit (h.magic _ h.running) h.bounded.regs hback hsafe
    hargs hcur hnext
  have hother : ∀ t ∈ s.threads, t ≠ s.running → ∀ x, t ≤ x → x < t + 4096 →
      (s.save code back).memory x = s.cpu.memory x := by
    intro t ht hne x hlow hhigh
    have hapart := apart (h.page t ht).1 hpage hne
    exact hrest x (by omega) (by omega)
  refine ⟨htrace, heax, hecx, hedx, fun t ht => ?_⟩
  by_cases hne : t = s.running
  · subst hne
    constructor
    · rw [← h.magic _ ht]
      exact word_congr fun x hlow hhigh => hrest x (.inr (by omega)) (.inl (by omega))
    · refine ⟨_, _, Function.update_self _ _ _, not_false, h.pending, hstack, ?_, ?_⟩
      · exact fun x hlow _ => hrest x (.inr (by omega)) (.inr hlow)
      · have hlow : s.running + 44 ≤ s.cpu.regs .esp - 20 := by omega
        refine ⟨hlow, ⟨hsafe, hesp.2, hfirst⟩, hwords, ?_⟩
        exact h.stacked.of_page fun x hlow _ => hrest x (.inr (by omega)) (.inr hlow)
  · obtain ⟨f, fs, hfs, hrests⟩ := h.resting t ht hne
    constructor
    · rw [← h.magic t ht]
      exact word_congr fun x hlow hhigh => hother t ht hne x (by omega) (by omega)
    · exact ⟨f, fs, (Function.update_of_ne hne _ _).trans hfs, hrests.of_page (hother t ht hne)⟩

theorem bounded_resume (h : s.cpu.Bounded) (back : Nat) : (s.resume code back).Bounded := by
  have hcall : code.contextSwitch < 4294967296 := code.lt _ (by simp)
  have hcomplete : code.switchComplete < 4294967296 := code.lt _ (by simp)
  have hsave : (s.save code back).Bounded := by
    refine h.run fun i hi => ?_
    simp only [saveRoutine, List.mem_cons, List.not_mem_nil, or_false] at hi
    rcases hi with rfl | rfl | rfl | rfl | rfl | rfl | rfl | rfl | rfl
    · exact hcall
    all_goals simp [Instruction.Bounded]
  have hrestore : ((s.save code back).run restoreRoutine).Bounded := by
    refine hsave.run fun i hi => ?_
    simp only [restoreRoutine, List.mem_cons, List.not_mem_nil, or_false] at hi
    rcases hi with rfl | rfl | rfl | rfl | rfl | rfl
    all_goals trivial
  unfold resume
  dsimp only
  split
  · refine hrestore.run fun i hi => ?_
    simp only [Code.firstRoutine, List.mem_cons, List.not_mem_nil, or_false] at hi
    rcases hi with rfl | rfl | rfl
    · trivial
    · trivial
    · exact hcomplete
  · exact hrestore

theorem Sound.switch (h : s.Sound code) (henabled : s.Enabled code (.switch next back))
    (hsafe : s.Safe (.switch next back)) (hnext : s.next code (.switch next back) = some s') :
    s'.Sound code ∧ s.Kept code (.switch next back) s'.cpu := by
  obtain ⟨hsaving, heax, hecx, hedx, hthreads⟩ := h.suspended henabled hsafe
  obtain ⟨hmem, -⟩ := henabled
  obtain ⟨hpage, hfit⟩ := h.page _ hmem
  obtain ⟨hmagic, f, fs, hfs, hrests⟩ := hthreads _ hmem
  have hrunning : s.running < 4294967296 := by
    have hrunningFit := (h.page _ h.running).2
    omega
  obtain ⟨hrestoring, hentering, hresumes⟩ :=
    hrests.resume hpage hfit hmagic hecx hedx heax hrunning
  have hresume : (if ((s.save code back).run restoreRoutine).eip = code.firstSwitch then
      ((s.save code back).run restoreRoutine).run code.firstRoutine
      else (s.save code back).run restoreRoutine) = s.resume code back := by
    rw [ThreadSystem.resume]
  rw [hresume] at hresumes
  obtain ⟨hresumed, hesp, hpending, hstacked, hmemory⟩ := hresumes
  obtain rfl := Option.some.inj hnext
  have hother : ∀ t ∈ s.threads, t ≠ next → ∀ x, t ≤ x → x < t + 4096 →
      (s.resume code back).memory x = (s.save code back).memory x := by
    intro t ht hne x hlow hhigh
    have hapart := apart (h.page t ht).1 hpage hne
    exact hmemory x (by omega)
  have hlanded : Function.update (s.suspended back) next (landed (s.suspended back next)) next =
      landed (f :: fs) := by
    rw [Function.update_self, hfs]
  have hbounded : (s.resume code back).Bounded := bounded_resume h.bounded back
  generalize s.resume code back = c' at hresumed hesp hstacked hmemory hother hbounded
  refine ⟨⟨hbounded, h.page, ?_, hmem, hesp, ?_, ?_, ?_⟩, ?_, ?_⟩
  · intro t ht
    by_cases hne : t = next
    · rw [hne, ← hmagic]
      exact word_congr fun x _ _ => hmemory x (by omega)
    · rw [← (hthreads t ht).1]
      exact word_congr fun x hlow hhigh => hother t ht hne x (by omega) (by omega)
  · dsimp only
    rw [hlanded]
    exact hpending
  · dsimp only
    rw [hlanded]
    exact hstacked
  · intro t ht hne
    obtain ⟨-, g, gs, hgs, hrests'⟩ := hthreads t ht
    exact ⟨g, gs, (Function.update_of_ne hne _ _).trans hgs, hrests'.of_page (hother t ht hne)⟩
  · intro p hp
    unfold visited at hp
    dsimp only at hp
    rcases List.mem_append.mp hp with hp | hp
    · rcases List.mem_append.mp hp with hp | hp
      · obtain ⟨x, hx, rfl⟩ := List.mem_map.mp hp
        exact hsaving x hx
      · obtain ⟨x, hx, rfl⟩ := List.mem_map.mp hp
        exact hrestoring x hx
    · split at hp
      · rename_i heip
        obtain ⟨x, hx, rfl⟩ := List.mem_map.mp hp
        exact hentering heip x hx
      · exact absurd hp List.not_mem_nil
  · intro p hp
    unfold resumed at hp
    dsimp only at hp
    rw [hfs, List.head?_cons, Option.map_some] at hp
    obtain rfl := Option.some.inj hp
    exact hresumed

end Switch

/-! ## Interrupts, and the return of a call -/

section Frames

variable {f : Frame} {fs : List Frame} {c : Cpu}

/-- The running thread goes on from its innermost frame. -/
theorem Sound.tail (h : s.Sound code) (hfs : s.frames s.running = f :: fs) (hbounded : c.Bounded)
    (hmemory : c.memory = s.cpu.memory)
    (hesp : s.running + 44 ≤ c.regs .esp ∧ c.regs .esp < s.running + 4096)
    (htop : c.regs .esp ≤ f.top s.running) :
    Sound code { s with
      cpu := c
      frames := Function.update s.frames s.running (s.frames s.running).tail } := by
  have hstacked := h.stacked
  have hpending := h.pending
  rw [hfs] at hstacked hpending
  obtain ⟨-, -, -, hrest⟩ := hstacked
  have htail : Function.update s.frames s.running (s.frames s.running).tail s.running = fs := by
    rw [Function.update_self, hfs]
    rfl
  refine ⟨hbounded, h.page, ?_, h.running, hesp, ?_, ?_, ?_⟩
  · dsimp only
    rw [hmemory]
    exact h.magic
  · dsimp only
    rw [htail]
    exact fun g hg => hpending g (List.mem_cons_of_mem f hg)
  · dsimp only
    rw [htail, hmemory]
    exact hrest.moves (Nat.le_trans htop hrest.le_floor)
  · intro t ht hne
    obtain ⟨g, gs, hgs, hrests⟩ := h.resting t ht hne
    refine ⟨g, gs, (Function.update_of_ne hne _ _).trans hgs, ?_⟩
    dsimp only
    rw [hmemory]
    exact hrests

theorem resumed_head (hfs : s.frames s.running = f :: fs) {p : Nat × Frame}
    (hp : (s.frames s.running).head?.map (s.running, ·) = some p) : p = (s.running, f) := by
  rw [hfs] at hp
  exact (Option.some.inj hp).symm

theorem Sound.complete (h : s.Sound code) (henabled : s.Enabled code .complete)
    (hnext : s.next code .complete = some s') :
    s'.Sound code ∧ s.Kept code .complete s'.cpu := by
  obtain ⟨function, aux, fs, hfs, hesp⟩ := henabled
  obtain ⟨hpage, hfit⟩ := h.page _ h.running
  have hstacked := h.stacked
  rw [hfs] at hstacked
  obtain ⟨-, -, ⟨prev, hwords⟩, -⟩ := hstacked
  obtain ⟨htrace, heip, hesp', hmemory⟩ :=
    complete_run hpage hfit (h.magic _ h.running) hesp hwords
  have hbounded : (s.cpu.run completeRoutine).Bounded := by
    refine h.bounded.run fun i hi => ?_
    simp only [completeRoutine, List.mem_cons, List.not_mem_nil, or_false] at hi
    rcases hi with rfl | rfl | rfl
    all_goals trivial
  obtain rfl := Option.some.inj hnext
  generalize hc : s.cpu.run completeRoutine = c' at *
  refine ⟨h.tail hfs hbounded hmemory (by omega) ?_, ?_, ?_⟩
  · unfold Frame.top
    dsimp only
    omega
  · intro p hp
    obtain ⟨x, hx, rfl⟩ := List.mem_map.mp hp
    exact htrace x hx
  · intro p hp
    obtain rfl := resumed_head hfs hp
    refine ⟨heip, ?_, ?_⟩
    · dsimp only
      rw [hesp', hmemory]
      exact hwords.2.2.2.2.1
    · dsimp only
      rw [hesp', hmemory]
      exact hwords.2.2.2.2.2.1

theorem Sound.handled (h : s.Sound code) (henabled : s.Enabled code .handled)
    (hnext : s.next code .handled = some s') :
    s'.Sound code ∧ s.Kept code .handled s'.cpu := by
  obtain ⟨regs, eip, cs, eflags, fs, hfs, hesp⟩ := henabled
  obtain ⟨hpage, hfit⟩ := h.page _ h.running
  have hstacked := h.stacked
  rw [hfs] at hstacked
  obtain ⟨-, hfits, ⟨hwords, number, hframe⟩, -⟩ := hstacked
  unfold Frame.Fits at hfits
  dsimp only at hfits
  obtain ⟨htrace, hregs, heip, hcs, heflags, hmemory⟩ :=
    handled_run hpage hfit (h.magic _ h.running) hfits.1 hfits.2 hesp hwords hframe
  have hbounded : (s.cpu.run handledRoutine).Bounded := by
    refine h.bounded.run fun i hi => ?_
    simp only [handledRoutine, List.mem_cons, List.not_mem_nil, or_false] at hi
    rcases hi with rfl | rfl | rfl | rfl | rfl | rfl | rfl | rfl
    all_goals trivial
  obtain rfl := Option.some.inj hnext
  generalize hc : s.cpu.run handledRoutine = c' at *
  have hesp' : c'.regs .esp = regs .esp := congrFun hregs .esp
  refine ⟨h.tail hfs hbounded hmemory (by omega) ?_, ?_, ?_⟩
  · unfold Frame.top
    dsimp only
    omega
  · intro p hp
    obtain ⟨x, hx, rfl⟩ := List.mem_map.mp hp
    exact htrace x hx
  · intro p hp
    obtain rfl := resumed_head hfs hp
    exact ⟨hregs, heip, hcs, heflags⟩

theorem bounded_interrupt (h : s.cpu.Bounded) (number : Nat) (image : Nat → UInt8) :
    (s.cpu.accept.run (code.interruptRoutine number image)).Bounded := by
  have hhandler : code.handler < 4294967296 := code.lt _ (by simp)
  refine Cpu.Bounded.run h.push.push.push fun i hi => ?_
  simp only [Code.interruptRoutine, List.mem_cons, List.not_mem_nil, or_false] at hi
  rcases hi with rfl | rfl | rfl | rfl | rfl | rfl | rfl | rfl
  all_goals first | exact hhandler | trivial

theorem Sound.interrupt {number : Nat} {image : Nat → UInt8} (h : s.Sound code)
    (henabled : s.Enabled code (.interrupt number image)) (hsafe : s.Safe (.interrupt number image))
    (hnext : s.next code (.interrupt number image) = some s') :
    s'.Sound code ∧ s.Kept code (.interrupt number image) s'.cpu := by
  obtain ⟨hnumber, -⟩ := henabled
  unfold Safe at hsafe
  dsimp only at hsafe
  have hesp := h.esp
  obtain ⟨hpage, -⟩ := h.page _ h.running
  obtain ⟨htrace, -, hbottom, hregs, hframe, hrest⟩ := interrupt_run code image
    hpage (h.magic _ h.running) h.bounded.regs h.bounded.eip h.bounded.cs h.bounded.eflags hnumber
    hsafe hesp.2
  have hbounded : (s.cpu.accept.run (code.interruptRoutine number image)).Bounded :=
    bounded_interrupt h.bounded number image
  obtain rfl := Option.some.inj hnext
  generalize hc : s.cpu.accept.run (code.interruptRoutine number image) = c' at *
  have hother : ∀ t ∈ s.threads, t ≠ s.running → ∀ x, t ≤ x → x < t + 4096 →
      c'.memory x = s.cpu.memory x := by
    intro t ht hne x hlow hhigh
    have hapart := apart (h.page t ht).1 hpage hne
    exact hrest x (by omega)
  refine ⟨⟨hbounded, h.page, ?_, h.running, ?_, ?_, ?_, ?_⟩, ?_, nofun⟩
  · intro t ht
    rw [← h.magic t ht]
    refine word_congr fun x hlow hhigh => ?_
    by_cases hne : t = s.running
    · exact hrest x (.inl (by omega))
    · exact hother t ht hne x (by omega) (by omega)
  · dsimp only
    omega
  · dsimp only
    rw [Function.update_self]
    intro f hf
    rcases List.mem_cons.mp hf with rfl | hf
    · trivial
    · exact h.pending f hf
  · dsimp only
    rw [Function.update_self, hbottom]
    refine ⟨Nat.le_refl _, ⟨hsafe, hesp.2⟩, ⟨hregs, number, hframe⟩, ?_⟩
    exact h.stacked.of_page fun x hlow _ => hrest x (.inr hlow)
  · intro t ht hne
    obtain ⟨f, fs, hfs, hrests⟩ := h.resting t ht hne
    exact ⟨f, fs, (Function.update_of_ne hne _ _).trans hfs, hrests.of_page (hother t ht hne)⟩
  · intro p hp
    obtain ⟨x, hx, rfl⟩ := List.mem_map.mp hp
    exact htrace x hx

end Frames

/-! ## Every run -/

theorem Sound.step {a : SwitchAction} (h : s.Sound code) (henabled : s.Enabled code a)
    (hsafe : s.Safe a) (hnext : s.next code a = some s') :
    s'.Sound code ∧ s.Kept code a s'.cpu := by
  cases a with
  | act c =>
      have hsound := h.act henabled hsafe hnext
      obtain rfl := Option.some.inj hnext
      refine ⟨hsound, fun p hp => ?_, nofun⟩
      obtain rfl := List.mem_singleton.mp hp
      exact hsound.runs
  | create new id pageDirectory pool function aux =>
      have hsound := h.create henabled hsafe hnext
      obtain ⟨m, -, rfl⟩ := Option.map_eq_some_iff.mp hnext
      refine ⟨hsound, fun p hp => ?_, nofun⟩
      obtain rfl := List.mem_singleton.mp hp
      exact hsound.runs
  | switch next back => exact h.switch henabled hsafe hnext
  | complete => exact h.complete henabled hnext
  | interrupt number image => exact h.interrupt henabled hsafe hnext
  | handled => exact h.handled henabled hnext

end ThreadSystem

/-- What a step preserves holds along every run whose steps are safe. -/
theorem sound_of_safe {code : Code} {s : ThreadSystem}
    (run : (switchMachine code).Reach ThreadSystem.Safe s) : s.Sound code ∧ s.kept := by
  apply run.invariant
  · exact fun s h => ⟨h.sound, h.kept⟩
  · rintro s a s' ⟨hsound, hkept⟩ hsafe ⟨henabled, hadvance⟩
    obtain ⟨mid, hnext, rfl⟩ := Option.map_eq_some_iff.mp hadvance
    obtain ⟨hsound', hkept'⟩ := hsound.step henabled hsafe hnext
    refine ⟨?_, hkept, hkept'⟩
    exact ⟨hsound'.bounded, hsound'.page, hsound'.magic, hsound'.running, hsound'.esp,
      hsound'.pending, hsound'.stacked, hsound'.resting⟩

/-- In every run in which no thread is created in front of another one's page, within the four pages
that `thread_create` clears, and no stack reaches into the thread structure at the bottom of its
page, context switches are transparent: `esp` stays in the page of the running thread, a new thread
enters `switch_complete` with the thread that has been switched away from and then `run` with its
arguments, a call of `context_switch` returns with the registers and the stack of the call and the
thread that has switched to it in `eax`, and an interrupted thread gets back its registers. -/
theorem context_switches_transparent {code : Code} {s : ThreadSystem}
    (run : (switchMachine code).Reach ThreadSystem.Safe s) : s.kept :=
  (sound_of_safe run).2

/-! ## A thread in front of another one -/

/-- Some place for the routines. -/
def linkedCode : Code where
  contextSwitch := 0xC0100000
  firstSwitch := 0xC0100040
  run := 0xC0100080
  switchComplete := 0xC0100200
  afterComplete := 0xC0100049
  handler := 0xC0100400
  afterHandler := 0xC0100600
  lt := by decide

/-- `K_THREAD_BASE` -/
def bootPage : Nat := 0xC0007000

def firstPage : Nat := 0xC0502000

/-- A page in front of `firstPage`. -/
def secondPage : Nat := 0xC0501000

/-- The first thread is about to call `context_switch` for the thread on `firstPage`. -/
def bootMemory : Bytes :=
  storeWord (bootPage + 40) T_MAGIC (storeWord (bootPage + 2048) bootPage
    (storeWord (bootPage + 2052) firstPage fun _ => 0))

def bootSystem : ThreadSystem where
  cpu := ⟨fun r => if r = .esp then bootPage + 2048 else 0, 0, 0, 0, bootMemory⟩
  threads := [bootPage]
  running := bootPage
  frames _ := []
  kept := True

theorem bootMemory_words : bootMemory.word (bootPage + 40) = T_MAGIC ∧
    bootMemory.word (bootPage + 2048) = bootPage ∧
    bootMemory.word (bootPage + 2052) = firstPage := by
  have hmagic : T_MAGIC < 4294967296 := by decide
  have hboot : bootPage < 4294967296 := by decide
  have hfirst : firstPage < 4294967296 := by decide
  unfold bootMemory
  refine ⟨?_, ?_, ?_⟩ <;> simp (disch := omega) only [word_storeWord, word_storeWord_ne]

theorem bootSystem_start : bootSystem.Start := by
  refine ⟨⟨?_, by decide, by decide, by decide⟩, rfl, by decide, bootMemory_words.1, ?_,
    fun _ => rfl, trivial⟩
  · intro r
    unfold bootSystem
    dsimp only
    split <;> decide
  · decide

/-- A page that is cleared by a `thread_create` in front of it. -/
theorem threadCreate_clears {code : Code} {new id pageDirectory pool function aux t : Nat}
    {m m' : Bytes} (hnew : new % PGSIZE = 0) (hfit : new + 4096 ≤ 4294967296)
    (ht : t % PGSIZE = 0) (htFit : t + 4096 ≤ 4294967296) (hne : t ≠ new)
    (hcleared : Lib.offset new t < 4 * PGSIZE)
    (hfunction : function < 4294967296) (haux : aux < 4294967296)
    (hcreate : code.threadCreate new id pageDirectory pool function aux m = some m') {x : Nat}
    (hlow : t ≤ x) (hhigh : x < t + 4096) : m' x = 0 := by
  obtain ⟨hword, hmagic, hzero⟩ := initThread_word id pageDirectory pool m hfit
  have hapart := apart ht hnew hne
  have hoffset : Lib.offset new x < 4 * PGSIZE := by
    unfold Lib.offset u32 PGSIZE at *
    omega
  obtain ⟨m₁, hbuild, -, -, -, hrest⟩ :=
    buildStack_run code hfit hfunction haux hword hmagic hzero
  obtain rfl := Option.some.inj (hbuild.symm.trans hcreate)
  rw [hrest x (by omega)]
  unfold initThread
  simp (disch := omega) only [storeWord_of_outside]
  rw [Lib.memset_apply, if_pos ⟨by omega, hoffset⟩, byteOf, Nat.zero_div]
  rfl

theorem ThreadSystem.advance_create {code : Code} {s : ThreadSystem}
    {new id pageDirectory pool function aux : Nat} {m : Bytes}
    (hcreate : code.threadCreate new id pageDirectory pool function aux s.cpu.memory = some m) :
    s.advance code (.create new id pageDirectory pool function aux) =
      some
        { cpu := { s.cpu with memory := m }
          threads := new :: s.threads
          running := s.running
          frames := Function.update s.frames new [.fresh function aux]
          kept := s.kept ∧ s.Kept code (.create new id pageDirectory pool function aux)
            { s.cpu with memory := m } } := by
  rw [ThreadSystem.advance, ThreadSystem.next, hcreate]
  rfl

/-- The boot thread's page lies behind none that is cleared. -/
theorem boot_kept {new id pageDirectory pool function aux : Nat} {m m' : Bytes}
    (hnew : new % PGSIZE = 0) (hfit : new + 4096 ≤ 4294967296) (hfunction : function < 4294967296)
    (haux : aux < 4294967296) (hout : ¬ Lib.offset new bootPage < 4 * PGSIZE)
    (hcreate : linkedCode.threadCreate new id pageDirectory pool function aux m = some m')
    {x : Nat} (hlow : bootPage ≤ x) (hhigh : x < bootPage + 4096) : m' x = m x := by
  obtain ⟨m₁, hcreate₁, -, -, -, hrest⟩ := threadCreate_run linkedCode new id
    pageDirectory pool function aux m hfit hfunction haux
  obtain rfl := Option.some.inj (hcreate₁.symm.trans hcreate)
  refine hrest x ?_ (not_cleared hnew (by decide) hout hlow hhigh)
  unfold bootPage at *
  omega

/-- The boot thread creates a thread on `firstPage`. -/
theorem boot_create : ∃ s : ThreadSystem, (switchMachine linkedCode).Reach ThreadSystem.Safe s ∧
    s.threads = [firstPage, bootPage] ∧ s.running = bootPage ∧
    s.frames = Function.update (fun _ => []) firstPage [.fresh 16 32] ∧
    s.cpu.regs = bootSystem.cpu.regs ∧
    ∀ x, bootPage ≤ x → x < bootPage + 4096 → s.cpu.memory x = bootMemory x := by
  obtain ⟨m, hcreate, -⟩ := threadCreate_run linkedCode firstPage 2 0 0 16 32 bootMemory (by decide)
    (by decide) (by decide)
  have henabled : bootSystem.Enabled linkedCode (.create firstPage 2 0 0 16 32) :=
    ⟨by decide, by decide, by decide, by decide, by decide⟩
  have hsafe : bootSystem.Safe (.create firstPage 2 0 0 16 32) := by
    intro t ht
    obtain rfl := List.mem_singleton.mp ht
    decide
  refine ⟨_, .step (.start bootSystem_start) hsafe
    ⟨henabled, ThreadSystem.advance_create hcreate⟩, rfl, rfl, rfl, rfl, fun x hlow hhigh => ?_⟩
  exact boot_kept (by decide) (by decide) (by decide) (by decide) (by decide) hcreate hlow hhigh

/-- It calls `context_switch` for the new thread, which enters `switch_complete`. -/
theorem boot_switch : ∃ s : ThreadSystem, (switchMachine linkedCode).Reach ThreadSystem.Safe s ∧
    s.running = firstPage ∧ s.frames firstPage = [.starting 16 32] := by
  obtain ⟨s, hreach, hthreads, hrunning, hframes, hregs, hboot⟩ := boot_create
  obtain ⟨hmagic, hcur, hnext⟩ := bootMemory_words
  have hword : ∀ x, bootPage ≤ x → x + 4 ≤ bootPage + 4096 →
      s.cpu.memory.word x = bootMemory.word x :=
    fun x hlow hhigh => word_congr fun y hy hy' => hboot y (by omega) (by omega)
  have hesp : s.cpu.regs .esp = bootPage + 2048 := by rw [hregs]; rfl
  have henabled : s.Enabled linkedCode (.switch firstPage 0) := by
    refine ⟨?_, ?_, ?_, ?_, ?_, by decide, by decide⟩
    · rw [hthreads]
      exact List.mem_cons_self
    · rw [hesp, hword _ (by omega) (by omega), hcur, hrunning]
    · rw [hesp, hword _ (by omega) (by omega), ← hnext]
    · rw [hesp, hrunning]
      omega
    · rw [hesp, hrunning]
      omega
  have hsafe : s.Safe (.switch firstPage 0) := by
    unfold ThreadSystem.Safe
    dsimp only
    rw [hesp, hrunning]
    omega
  have hfresh : s.suspended 0 firstPage = [.fresh 16 32] := by
    have hne : firstPage ≠ s.running := by
      rw [hrunning]
      decide
    rw [ThreadSystem.suspended, Function.update_of_ne hne, hframes, Function.update_self]
  refine ⟨_, .step hreach hsafe ⟨henabled, rfl⟩, rfl, ?_⟩
  dsimp only
  rw [Function.update_self, hfresh]
  rfl

/-- `switch_complete` returns, and the new thread runs with its arguments. -/
theorem run_entered : ∃ s : ThreadSystem, s.running = firstPage ∧ s.cpu.eip = linkedCode.run ∧
    s.cpu.memory.word (s.cpu.regs .esp + 4) = 16 ∧ s.cpu.memory.word (s.cpu.regs .esp + 8) = 32 ∧
    s.kept := by
  obtain ⟨s, hreach, hrunning, hframes⟩ := boot_switch
  obtain ⟨hsound, -⟩ := sound_of_safe hreach
  have hbounded : (s.cpu.set .esp (firstPage + 4072)).Bounded := hsound.bounded.set (by decide)
  have hact : s.Enabled linkedCode (.act (s.cpu.set .esp (firstPage + 4072))) := by
    refine ⟨hbounded, ?_, ?_, ?_, fun _ _ => rfl⟩
    · rw [Cpu.set_self, hrunning]
      omega
    · rw [Cpu.set_self, hrunning]
      omega
    · rw [Cpu.set_self, hrunning, hframes]
      exact Nat.le_refl _
  have hsafe : s.Safe (.act (s.cpu.set .esp (firstPage + 4072))) := by
    unfold ThreadSystem.Safe
    dsimp only
    rw [Cpu.set_self, hrunning]
    omega
  obtain ⟨s₁, hreach₁, hrunning₁, hesp₁, hframes₁⟩ : ∃ s₁ : ThreadSystem,
      (switchMachine linkedCode).Reach ThreadSystem.Safe s₁ ∧ s₁.running = firstPage ∧
        s₁.cpu.regs .esp = firstPage + 4072 ∧ s₁.frames firstPage = [.starting 16 32] := by
    refine ⟨_, .step hreach hsafe ⟨hact, rfl⟩, hrunning, Cpu.set_self _ _ _, ?_⟩
    dsimp only
    rw [hframes]
    rfl
  have hcomplete : s₁.Enabled linkedCode .complete := by
    refine ⟨16, 32, [], ?_, ?_⟩
    · rw [hrunning₁, hframes₁]
    · rw [hrunning₁, hesp₁]
  obtain ⟨s₂, hs₂⟩ : ∃ s₂, s₁.advance linkedCode .complete = some s₂ := ⟨_, rfl⟩
  have hsafe₁ : s₁.Safe .complete := trivial
  have hkept := context_switches_transparent (.step hreach₁ hsafe₁ ⟨hcomplete, hs₂⟩)
  obtain ⟨mid, hnext, rfl⟩ := Option.map_eq_some_iff.mp hs₂
  have hrunning₂ : mid.running = firstPage := by
    obtain rfl := Option.some.inj hnext
    exact hrunning₁
  have hresumed : s₁.resumed .complete = some (s₁.running, .starting 16 32) := by
    unfold ThreadSystem.resumed
    dsimp only
    rw [hrunning₁, hframes₁]
    rfl
  obtain ⟨heip, hfunction, haux⟩ := hkept.2.2 _ hresumed
  exact ⟨{ mid with kept := s₁.kept ∧ s₁.Kept linkedCode .complete mid.cpu }, hrunning₂, heip,
    hfunction, haux, hkept⟩

/-- A second thread is created in front of the first one, which loses its stack: `context_switch`
takes 0 for its stack pointer. -/
theorem contexts_not_transparent :
    ¬ ∀ code s, (switchMachine code).Reachable s → s.kept := by
  intro hall
  obtain ⟨s, hreach, hthreads, hrunning, -, hregs, hboot⟩ := boot_create
  obtain ⟨m, hcreate, -⟩ := threadCreate_run linkedCode secondPage 3 0 0 16 32 s.cpu.memory
    (by decide) (by decide) (by decide)
  have henabled : s.Enabled linkedCode (.create secondPage 3 0 0 16 32) := by
    refine ⟨by decide, by decide, ?_, by decide, by decide⟩
    rw [hthreads]
    decide
  obtain ⟨s₂, hreach₂, hmem₂, hrunning₂, hregs₂, rfl⟩ : ∃ s₂ : ThreadSystem,
      (switchMachine linkedCode).Reachable s₂ ∧ firstPage ∈ s₂.threads ∧
        s₂.running = bootPage ∧ s₂.cpu.regs = bootSystem.cpu.regs ∧ s₂.cpu.memory = m := by
    refine ⟨_, .step (hreach.mono fun _ _ _ => trivial) trivial
      ⟨henabled, ThreadSystem.advance_create hcreate⟩, ?_, hrunning, hregs, rfl⟩
    rw [hthreads]
    exact List.mem_cons_of_mem _ List.mem_cons_self
  have hword : ∀ x, bootPage ≤ x → x + 4 ≤ bootPage + 4096 →
      s₂.cpu.memory.word x = bootMemory.word x := by
    refine fun x hlow hhigh => word_congr fun y hy hy' => ?_
    rw [← hboot y (by omega) (by omega)]
    exact boot_kept (by decide) (by decide) (by decide) (by decide) (by decide) hcreate (by omega)
      (by omega)
  have hcleared : s₂.cpu.memory.word firstPage = 0 := by
    have hbyte : ∀ k < 4, s₂.cpu.memory (firstPage + k) = 0 := fun k hk =>
      threadCreate_clears (t := firstPage) (by decide) (by decide) (by decide) (by decide)
        (by decide) (by decide) (by decide) (by decide) hcreate (by omega) (by omega)
    unfold Bytes.word
    rw [hbyte 1 (by decide), hbyte 2 (by decide), hbyte 3 (by decide)]
    rw [← Nat.add_zero firstPage, hbyte 0 (by decide)]
    rfl
  obtain ⟨hmagic, hcur, hnext⟩ := bootMemory_words
  have hesp : s₂.cpu.regs .esp = bootPage + 2048 := by rw [hregs₂]; rfl
  have hbounded : ∀ r, s₂.cpu.regs r < 4294967296 := by
    rw [hregs₂]
    exact bootSystem_start.bounded.regs
  have hmagic₂ : s₂.cpu.memory.word (bootPage + 40) = T_MAGIC :=
    (hword _ (by omega) (by omega)).trans hmagic
  have hcur₂ : s₂.cpu.memory.word (s₂.cpu.regs .esp) = bootPage := by
    rw [hesp, hword _ (by omega) (by omega), hcur]
  have hnext₂ : s₂.cpu.memory.word (s₂.cpu.regs .esp + 4) = firstPage := by
    rw [hesp, hword _ (by omega) (by omega), ← hnext]
  obtain ⟨s₃, hs₃⟩ : ∃ s₃, s₂.advance linkedCode (.switch firstPage 0) = some s₃ := ⟨_, rfl⟩
  have henabled₂ : s₂.Enabled linkedCode (.switch firstPage 0) := by
    refine ⟨hmem₂, by rw [hcur₂, hrunning₂], hnext₂, ?_, ?_, by decide, by decide⟩
    · rw [hrunning₂]
      omega
    · rw [hrunning₂]
      omega
  have hkept := hall linkedCode s₃ (.step hreach₂ trivial ⟨henabled₂, hs₃⟩)
  obtain ⟨mid, -, rfl⟩ := Option.map_eq_some_iff.mp hs₃
  obtain ⟨-, -, hecx, hedx, -, -, hrest⟩ := save_run linkedCode.contextSwitch 0
    (by decide) (by decide) hmagic₂ hbounded (by decide) (by omega) (by omega) hcur₂
    hnext₂
  have hstack : (s₂.save linkedCode 0).memory.word firstPage = 0 := by
    refine Eq.trans (word_congr fun x hlow _ => ?_) hcleared
    have hstackWord : bootPage + 4 ≤ x := Nat.le_trans (by decide) hlow
    have hframe : s₂.cpu.regs .esp ≤ x := by
      rw [hesp]
      exact Nat.le_trans (by decide) hlow
    unfold ThreadSystem.save
    exact hrest x (.inr hstackWord) (.inr hframe)
  have hload : (s₂.save linkedCode 0).exec (.load .esp ⟨.ecx, some .edx, 0⟩) =
      (s₂.save linkedCode 0).set .esp 0 := by
    have haddress : u32 (firstPage + 0 + 0) = firstPage := by decide
    unfold ThreadSystem.save at hstack ⊢
    simp only [Cpu.exec, Cpu.address, hecx, hedx, Option.elim_some, haddress, hstack]
  have hruns : ((s₂.save linkedCode 0).set .esp 0).Runs firstPage := by
    refine hkept.2.1 (firstPage, _) ?_
    refine List.mem_append_left _ (List.mem_append_right _ (List.mem_map.mpr ⟨_, ?_, rfl⟩))
    rw [restoreRoutine, Cpu.trace, hload]
    exact List.mem_cons_self
  unfold Cpu.Runs currentThread at hruns
  rw [Cpu.set_self] at hruns
  dsimp only at hruns
  split at hruns
  · exact absurd (Option.some.inj hruns) (by decide)
  · exact absurd hruns.symm (Option.some_ne_none _)

end NickOS3.Thread
