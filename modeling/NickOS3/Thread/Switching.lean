import NickOS3.Foundation.Runs
import NickOS3.Thread.Routines

/-!
# Threads on one processor

Threads with their stacks in one memory: created, switched between and interrupted, in any order.
Each has its frames, which say what memory holds for it and how it goes on.
-/

namespace NickOS3.Thread

open Lib Foundation

/-! ## Frames -/

/-- A thread that is not running its own code: built by `thread_create` and not yet run; in the
first `switch_complete`; in a call of `context_switch`, with its registers and its stack at the
call; or interrupted. -/
inductive Frame
  | fresh (function aux : Nat)
  | starting (function aux : Nat)
  | switched (regs : Registers) (back : Nat) (contents : Bytes)
  | interrupted (regs : Registers) (eip cs eflags : Nat)

namespace Frame

variable (code : Code) (t : Nat)

/-- Where the bytes of the frame end on the stack of `t`. -/
def top : Frame → Nat
  | fresh _ _ => t + 4096
  | starting _ _ => t + 4096
  | switched regs _ _ => regs .esp
  | interrupted regs _ _ _ => regs .esp

/-- Where they begin. -/
def bottom : Frame → Nat
  | fresh _ _ => t + 4052
  | starting _ _ => t + 4072
  | switched regs _ _ => regs .esp - 20
  | interrupted regs _ _ _ => regs .esp - 164

/-- What memory holds for the frame. -/
def Saved (m : Bytes) : Frame → Prop
  | fresh function aux =>
      m.Words (t + 4052) [0, 0, 0, 0, code.firstSwitch, 0, 0, code.run, 0, function, aux]
  | starting function aux =>
      ∃ prev, m.Words (t + 4072) [code.afterComplete, prev, code.run, 0, function, aux]
  | switched regs back _ =>
      m.Words (regs .esp - 20) [regs .edi, regs .esi, regs .ebx, regs .ebp, back]
  | interrupted regs eip cs eflags =>
      m.Words (regs .esp - 164)
        [code.afterHandler, regs .esp - 156, regs .edi, regs .esi, regs .ebp, regs .esp - 124,
          regs .ebx, regs .edx, regs .ecx, regs .eax] ∧
      ∃ number, m.Words (regs .esp - 16) [number, eip, cs, eflags]

/-- The frame lies in the page of `t`, above the thread structure, and a call of `context_switch`
returns into C. -/
def Fits : Frame → Prop
  | fresh _ _ => True
  | starting _ _ => True
  | switched regs back _ =>
      t + 44 + 20 ≤ regs .esp ∧ regs .esp < t + 4096 ∧ back ≠ code.firstSwitch
  | interrupted regs _ _ _ => t + 44 + 164 ≤ regs .esp ∧ regs .esp < t + 4096

/-- The frames that a running thread may have. -/
def Pending : Frame → Prop
  | fresh _ _ => False
  | starting _ _ => True
  | switched _ _ _ => False
  | interrupted _ _ _ _ => True

/-- The stack above a call of `context_switch` is as it was, up to what others have written. -/
def Kept (m : Bytes) : Frame → Prop
  | switched regs _ contents => ∀ x, regs .esp ≤ x → x < t + 4096 → m x = contents x
  | _ => True

/-- What others write on the stack of a thread is expected there. -/
def track (m m' : Bytes) : Frame → Frame
  | switched regs back contents =>
      switched regs back fun x => if m' x = m x then contents x else m' x
  | f => f

/-- How `t` goes on: a new thread enters `switch_complete` and then `run`, with its arguments; a
call of `context_switch` returns, with the registers and the stack of the call and with `prev` in
`eax`; and an interrupted thread has all its registers. -/
def Resumed (prev : Nat) (c : Cpu) : Frame → Prop
  | fresh _ _ => c.eip = code.switchComplete ∧ c.memory.word (c.regs .esp + 4) = prev
  | starting function aux =>
      c.eip = code.run ∧ c.memory.word (c.regs .esp + 4) = function ∧
        c.memory.word (c.regs .esp + 8) = aux
  | switched regs back contents =>
      c.eip = back ∧ (∀ r ∈ [Register.ebx, .ebp, .esi, .edi, .esp], c.regs r = regs r) ∧
        c.regs .eax = prev ∧ ∀ x, regs .esp ≤ x → x < t + 4096 → c.memory x = contents x
  | interrupted regs eip cs eflags =>
      c.regs = regs ∧ c.eip = eip ∧ c.cs = cs ∧ c.eflags = eflags

end Frame

/-- The stack of `t` is its own below this address, when it has these frames. -/
def stackFloor (t : Nat) : List Frame → Nat
  | [] => t + 4096
  | f :: _ => f.bottom t

/-! ## The system -/

/-- The processor, the threads with their frames, the innermost first, and whether all threads have
gone on so far as they should. -/
structure ThreadSystem where
  cpu : Cpu
  threads : List Nat
  running : Nat
  frames : Nat → List Frame
  kept : Prop

/-- C code of the running thread; `thread_create`; `context_switch`; the return of the first
`switch_complete`; an interrupt; and the return of its handler. -/
inductive SwitchAction
  | act (cpu : Cpu)
  | create (new id pageDirectory pool function aux : Nat)
  | switch (next back : Nat)
  | complete
  | interrupt (number : Nat) (image : Nat → UInt8)
  | handled

namespace ThreadSystem

variable (code : Code) (s : ThreadSystem)

/-- The bytes that C code leaves alone: the frames of all threads, the stack pointers of those that
do not run, and the magic numbers, unless a stack has grown into one. -/
def Untouched (c : Cpu) (x : Nat) : Prop :=
  ∃ t ∈ s.threads, (∃ f ∈ s.frames t, f.bottom t ≤ x ∧ x < f.top t) ∨
    (t ≠ s.running ∧ t ≤ x ∧ x < t + 4) ∨
    ((t = s.running → t + 44 ≤ c.regs .esp) ∧ t + 40 ≤ x ∧ x < t + 44)

/-- When a step can happen; no stack grows outside its page. -/
def Enabled : SwitchAction → Prop
  | .act c =>
      c.Bounded ∧ s.running ≤ c.regs .esp ∧ c.regs .esp < s.running + 4096 ∧
        c.regs .esp ≤ stackFloor s.running (s.frames s.running) ∧
        ∀ x, s.Untouched c x → c.memory x = s.cpu.memory x
  | .create new _ _ _ function aux =>
      new % PGSIZE = 0 ∧ new + 4096 ≤ 4294967296 ∧ new ∉ s.threads ∧
        function < 4294967296 ∧ aux < 4294967296
  | .switch next back =>
      next ∈ s.threads ∧ s.cpu.memory.word (s.cpu.regs .esp) = s.running ∧
        s.cpu.memory.word (s.cpu.regs .esp + 4) = next ∧ s.running + 20 ≤ s.cpu.regs .esp ∧
        s.cpu.regs .esp + 8 ≤ s.running + 4096 ∧ back < 4294967296 ∧ back ≠ code.firstSwitch
  | .complete =>
      ∃ function aux rest, s.frames s.running = .starting function aux :: rest ∧
        s.cpu.regs .esp = s.running + 4072
  | .interrupt number _ => number < 4294967296 ∧ s.running + 164 ≤ s.cpu.regs .esp
  | .handled =>
      ∃ regs eip cs eflags rest, s.frames s.running = .interrupted regs eip cs eflags :: rest ∧
        s.cpu.regs .esp = regs .esp - 164

/-- The frames when the running thread has called `context_switch`. -/
def suspended (back : Nat) : Nat → List Frame :=
  Function.update s.frames s.running
    (.switched s.cpu.regs back s.cpu.memory :: s.frames s.running)

/-- `context_switch` up to where the stack pointer of the next thread is loaded. -/
def save (back : Nat) : Cpu := s.cpu.run (.call code.contextSwitch back :: saveRoutine)

/-- `context_switch` returns, in a new thread to `first_switch`. -/
def resume (back : Nat) : Cpu :=
  let c := (s.save code back).run restoreRoutine
  if c.eip = code.firstSwitch then c.run code.firstRoutine else c

/-- The frames of a thread that goes on. -/
def landed : List Frame → List Frame
  | .fresh function aux :: rest => .starting function aux :: rest
  | fs => fs.tail

/-- The state behind a step, apart from `kept`. -/
def next : SwitchAction → Option ThreadSystem
  | .act c =>
      some { s with
        cpu := c
        frames := fun t => (s.frames t).map (Frame.track s.cpu.memory c.memory) }
  | .create new id pageDirectory pool function aux =>
      (code.threadCreate new id pageDirectory pool function aux s.cpu.memory).map fun m =>
        { s with
          cpu := { s.cpu with memory := m }
          threads := new :: s.threads
          frames := Function.update s.frames new [.fresh function aux] }
  | .switch next back =>
      some { s with
        cpu := s.resume code back
        running := next
        frames := Function.update (s.suspended back) next (landed (s.suspended back next)) }
  | .complete =>
      some { s with
        cpu := s.cpu.run completeRoutine
        frames := Function.update s.frames s.running (s.frames s.running).tail }
  | .interrupt number image =>
      some { s with
        cpu := s.cpu.accept.run (code.interruptRoutine number image)
        frames := Function.update s.frames s.running
          (.interrupted s.cpu.regs s.cpu.eip s.cpu.cs s.cpu.eflags :: s.frames s.running) }
  | .handled =>
      some { s with
        cpu := s.cpu.run handledRoutine
        frames := Function.update s.frames s.running (s.frames s.running).tail }

/-- The states that a step goes through, up to `c`, with the thread that runs in each. -/
def visited (c : Cpu) : SwitchAction → List (Nat × Cpu)
  | .act _ => [(s.running, c)]
  | .create _ _ _ _ _ _ => [(s.running, c)]
  | .switch next back =>
      let saved := s.save code back
      let restored := saved.run restoreRoutine
      (s.cpu.trace (.call code.contextSwitch back :: saveRoutine)).map (s.running, ·) ++
        (saved.trace restoreRoutine).map (next, ·) ++
        if restored.eip = code.firstSwitch then (restored.trace code.firstRoutine).map (next, ·)
        else []
  | .complete => (s.cpu.trace completeRoutine).map (s.running, ·)
  | .interrupt number image =>
      (s.cpu.accept :: s.cpu.accept.trace (code.interruptRoutine number image)).map (s.running, ·)
  | .handled => (s.cpu.trace handledRoutine).map (s.running, ·)

/-- The thread that goes on with a step, and its frame. -/
def resumed : SwitchAction → Option (Nat × Frame)
  | .switch next back => (s.suspended back next).head?.map (next, ·)
  | .complete => (s.frames s.running).head?.map (s.running, ·)
  | .handled => (s.frames s.running).head?.map (s.running, ·)
  | _ => none

/-- `esp` is always in the page of the running thread, and the thread that goes on finds what it
should. -/
def Kept (a : SwitchAction) (c : Cpu) : Prop :=
  (∀ p ∈ s.visited code c a, p.2.Runs p.1) ∧
    ∀ p, s.resumed a = some p → p.2.Resumed code p.1 s.running c

def advance (a : SwitchAction) : Option ThreadSystem :=
  (s.next code a).map fun s' => { s' with kept := s.kept ∧ s.Kept code a s'.cpu }

/-- A new thread's page is not in front of another thread's, within the four pages that
`thread_create` clears, and no stack reaches into the thread structure. -/
def Safe : SwitchAction → Prop
  | .act c => s.running + 44 ≤ c.regs .esp
  | .create new _ _ _ _ _ => ∀ t ∈ s.threads, ¬ Lib.offset new t < 4 * PGSIZE
  | .switch _ _ => s.running + 44 + 20 ≤ s.cpu.regs .esp
  | .interrupt _ _ => s.running + 44 + 164 ≤ s.cpu.regs .esp
  | _ => True

/-- One thread runs, on its own stack. -/
structure Start : Prop where
  bounded : s.cpu.Bounded
  threads : s.threads = [s.running]
  page : s.running % PGSIZE = 0 ∧ s.running + 4096 ≤ 4294967296
  magic : s.cpu.memory.word (s.running + 40) = T_MAGIC
  esp : s.running + 44 ≤ s.cpu.regs .esp ∧ s.cpu.regs .esp < s.running + 4096
  frames : ∀ t, s.frames t = []
  kept : s.kept

end ThreadSystem

/-- Threads that are created, switched between and interrupted, in any order. -/
def switchMachine (code : Code) : Machine ThreadSystem SwitchAction where
  start := ThreadSystem.Start
  step s a s' := s.Enabled code a ∧ s.advance code a = some s'

/-! ## What memory holds for the threads -/

section Stacked

variable {code : Code} {t u low low' : Nat} {m m' : Bytes} {f : Frame} {fs : List Frame}

/-- The frames lie above one another on the stack of `t`, from `low` on, and memory holds them. -/
def Stacked (code : Code) (t : Nat) (m : Bytes) : Nat → List Frame → Prop
  | low, [] => low ≤ t + 4096
  | low, f :: fs =>
      low ≤ f.bottom t ∧ f.Fits code t ∧ f.Saved code t m ∧ Stacked code t m (f.top t) fs

theorem Frame.Fits.range (h : f.Fits code t) :
    f.bottom t ≤ f.top t ∧ t + 44 ≤ f.bottom t ∧ f.top t ≤ t + 4096 := by
  cases f <;> unfold Frame.Fits at h <;> unfold Frame.bottom Frame.top <;> dsimp only at h ⊢ <;>
    omega

theorem Frame.Saved.congr (hfits : f.Fits code t) (h : f.Saved code t m)
    (hm : ∀ x, f.bottom t ≤ x → x < f.top t → m' x = m x) : f.Saved code t m' := by
  unfold Frame.Fits at hfits
  unfold Frame.bottom Frame.top at hm
  unfold Frame.Saved at h ⊢
  cases f with
  | fresh function aux =>
      refine words_congr ?_ h
      intro x hlow hhigh
      simp only [List.length_cons, List.length_nil] at hhigh
      exact hm x hlow (by dsimp only; omega)
  | starting function aux =>
      obtain ⟨prev, h⟩ := h
      refine ⟨prev, words_congr ?_ h⟩
      intro x hlow hhigh
      simp only [List.length_cons, List.length_nil] at hhigh
      exact hm x hlow (by dsimp only; omega)
  | switched regs back contents =>
      dsimp only at hfits
      refine words_congr ?_ h
      intro x hlow hhigh
      simp only [List.length_cons, List.length_nil] at hhigh
      exact hm x hlow (by dsimp only; omega)
  | interrupted regs eip cs eflags =>
      dsimp only at hfits
      obtain ⟨hregs, number, hframe⟩ := h
      refine ⟨words_congr ?_ hregs, number, words_congr ?_ hframe⟩
      · intro x hlow hhigh
        simp only [List.length_cons, List.length_nil] at hhigh
        exact hm x hlow (by dsimp only; omega)
      · intro x hlow hhigh
        simp only [List.length_cons, List.length_nil] at hhigh
        exact hm x (by dsimp only; omega) (by dsimp only; omega)

theorem Stacked.congr (h : Stacked code t m low fs)
    (hm : ∀ f ∈ fs, ∀ x, f.bottom t ≤ x → x < f.top t → m' x = m x) :
    Stacked code t m' low fs := by
  induction fs generalizing low with
  | nil => exact h
  | cons f fs ih =>
      obtain ⟨hlow, hfits, hsaved, hrest⟩ := h
      refine ⟨hlow, hfits, hsaved.congr hfits (hm f List.mem_cons_self), ?_⟩
      exact ih hrest fun g hg => hm g (List.mem_cons_of_mem f hg)

/-- Every frame lies between `low` and the end of the page. -/
theorem Stacked.range (h : Stacked code t m low fs) :
    low ≤ t + 4096 ∧ ∀ f ∈ fs, low ≤ f.bottom t ∧ f.top t ≤ t + 4096 := by
  induction fs generalizing low with
  | nil => exact ⟨h, fun _ hf => absurd hf List.not_mem_nil⟩
  | cons f fs ih =>
      obtain ⟨hlow, hfits, -, hrest⟩ := h
      obtain ⟨-, hih⟩ := ih hrest
      have hrange := hfits.range
      refine ⟨by omega, fun g hg => ?_⟩
      rcases List.mem_cons.mp hg with rfl | hg
      · exact ⟨hlow, hrange.2.2⟩
      · have hbound := hih g hg
        exact ⟨by omega, hbound.2⟩

theorem Stacked.of_page (h : Stacked code t m low fs)
    (hm : ∀ x, low ≤ x → x < t + 4096 → m' x = m x) : Stacked code t m' low fs := by
  obtain ⟨-, hrange⟩ := h.range
  refine h.congr fun f hf x hlow hhigh => ?_
  have hbounds := hrange f hf
  exact hm x (by omega) (by omega)

/-- The stack pointer may move up to the innermost frame. -/
theorem Stacked.moves (h : Stacked code t m low fs)
    (hlow : low' ≤ stackFloor t fs) : Stacked code t m low' fs := by
  cases fs with
  | nil => exact hlow
  | cons f fs => exact ⟨hlow, h.2⟩

theorem Stacked.le_floor (h : Stacked code t m low fs) : low ≤ stackFloor t fs := by
  cases fs with
  | nil => exact h
  | cons f fs => exact h.1

theorem Frame.track_bottom : (f.track m m').bottom t = f.bottom t := by
  cases f <;> rfl

theorem Frame.track_pending : (f.track m m').Pending ↔ f.Pending := by
  cases f <;> rfl

theorem Stacked.track (h : Stacked code t m low fs) {m₁ m₂ : Bytes} :
    Stacked code t m low (fs.map (Frame.track m₁ m₂)) := by
  induction fs generalizing low with
  | nil => exact h
  | cons f fs ih =>
      obtain ⟨hlow, hfits, hsaved, hrest⟩ := h
      have hrest := ih hrest
      cases f <;> exact ⟨hlow, hfits, hsaved, hrest⟩

/-- A thread that does not run: `context_switch` can return to it. -/
structure Rests (code : Code) (t : Nat) (m : Bytes) (f : Frame) (fs : List Frame) : Prop where
  resting : ¬ f.Pending
  pending : ∀ g ∈ fs, g.Pending
  stack : m.word t = f.bottom t
  kept : f.Kept t m
  stacked : Stacked code t m (t + 44) (f :: fs)

theorem Rests.of_page (h : Rests code t m f fs)
    (hm : ∀ x, t ≤ x → x < t + 4096 → m' x = m x) : Rests code t m' f fs := by
  refine ⟨h.resting, h.pending, ?_, ?_, h.stacked.of_page fun x hx => hm x (by omega)⟩
  · rw [← h.stack]
    exact word_congr fun x hlow hhigh => hm x hlow (by omega)
  · obtain ⟨-, hfits, -⟩ := h.stacked
    have hkept := h.kept
    cases f with
    | switched regs back contents =>
        intro x hlow hhigh
        simp only [Frame.Fits] at hfits
        rw [hm x (by omega) hhigh]
        exact hkept x hlow hhigh
    | _ => trivial

/-- C code of another thread leaves the frames and the stack pointer alone. -/
theorem Rests.act (h : Rests code t m f fs) (hstack : ∀ x, t ≤ x → x < t + 4 → m' x = m x)
    (hframe : ∀ g ∈ f :: fs, ∀ x, g.bottom t ≤ x → x < g.top t → m' x = m x) :
    Rests code t m' (f.track m m') (fs.map (Frame.track m m')) := by
  refine ⟨mt Frame.track_pending.mp h.resting, ?_, ?_, ?_, (h.stacked.congr hframe).track⟩
  · intro g' hg'
    obtain ⟨g, hg, rfl⟩ := List.mem_map.mp hg'
    exact Frame.track_pending.mpr (h.pending g hg)
  · rw [Frame.track_bottom, ← h.stack]
    exact word_congr hstack
  · have hkept := h.kept
    cases f with
    | switched regs back contents =>
        intro x hlow hhigh
        dsimp only
        split
        · rename_i heq
          rw [heq]
          exact hkept x hlow hhigh
        · rfl
    | _ => trivial

/-- A thread goes on from where `context_switch` loads its stack pointer. -/
structure Resumes (code : Code) (t prev : Nat) (f : Frame) (fs : List Frame) (c c' : Cpu) :
    Prop where
  resumed : f.Resumed code t prev c'
  esp : t + 44 ≤ c'.regs .esp ∧ c'.regs .esp < t + 4096
  pending : ∀ g ∈ ThreadSystem.landed (f :: fs), g.Pending
  stacked : Stacked code t c'.memory (c'.regs .esp) (ThreadSystem.landed (f :: fs))
  memory : ∀ x, x < t + 4072 ∨ t + 4096 ≤ x → c'.memory x = c.memory x

section Resume

variable {c : Cpu} {prev function aux : Nat} {regs : Registers} {back : Nat} {contents : Bytes}

/-- A new thread: `context_switch` returns to `first_switch`, which calls `switch_complete`. -/
theorem Rests.resume_fresh (h : Rests code t c.memory (.fresh function aux) fs)
    (hpage : t % PGSIZE = 0) (hfit : t + 4096 ≤ 4294967296)
    (hmagic : c.memory.word (t + 40) = T_MAGIC) (hecx : c.regs .ecx = t) (hedx : c.regs .edx = 0)
    (heax : c.regs .eax = prev) (hprev : prev < 4294967296) :
    let restored := c.run restoreRoutine
    (∀ x ∈ c.trace restoreRoutine, x.Runs t) ∧ restored.eip = code.firstSwitch ∧
      (∀ x ∈ restored.trace code.firstRoutine, x.Runs t) ∧
      Resumes code t prev (.fresh function aux) fs c (restored.run code.firstRoutine) := by
  intro restored
  obtain ⟨-, -, hwords, hrest⟩ := h.stacked
  have hsplit : c.memory.Words (t + 4052)
      ([0, 0, 0, 0, code.firstSwitch] ++ [0, 0, code.run, 0, function, aux]) := hwords
  obtain ⟨hswitch, hfirst⟩ := words_append.mp hsplit
  obtain ⟨htrace, heip, -, -, -, -, heax', hesp, hmemory⟩ := restore_run hecx hedx hpage hfit hmagic
    h.stack (by unfold Frame.bottom; dsimp only; omega) (by unfold Frame.bottom; dsimp only; omega)
    hswitch
  have hesp' : restored.regs .esp = t + 4072 := hesp
  have hmagic' : restored.memory.word (t + 40) = T_MAGIC := hmemory ▸ hmagic
  have hfirst' : restored.memory.Words (t + 4072) [0, 0, code.run, 0, function, aux] :=
    hmemory ▸ hfirst
  obtain ⟨htrace', heip', hesp'', hwords', hmemory'⟩ := first_run hpage hfit hmagic' hesp'
    (heax'.trans heax) hprev hfirst'
  have houtside : ∀ x, x < t + 4072 ∨ t + 4096 ≤ x →
      (restored.run code.firstRoutine).memory x = c.memory x := by
    intro x hx
    rw [hmemory' x (by omega), hmemory]
  refine ⟨htrace, heip, htrace', ⟨heip', ?_⟩, ?_, ?_, ?_, houtside⟩
  · rw [hesp'']
    exact hwords'.2.1
  · omega
  · intro g hg
    rcases List.mem_cons.mp hg with rfl | hg
    · trivial
    · exact h.pending g hg
  · refine ⟨Nat.le_of_eq hesp'', trivial, ⟨prev, hwords'⟩, hrest.of_page fun x hlow hhigh => ?_⟩
    exact houtside x (.inr hlow)

/-- A call of `context_switch` returns. -/
theorem Rests.resume_switched (h : Rests code t c.memory (.switched regs back contents) fs)
    (hpage : t % PGSIZE = 0) (hfit : t + 4096 ≤ 4294967296)
    (hmagic : c.memory.word (t + 40) = T_MAGIC) (hecx : c.regs .ecx = t) (hedx : c.regs .edx = 0)
    (heax : c.regs .eax = prev) :
    let restored := c.run restoreRoutine
    (∀ x ∈ c.trace restoreRoutine, x.Runs t) ∧ restored.eip ≠ code.firstSwitch ∧
      Resumes code t prev (.switched regs back contents) fs c restored := by
  intro restored
  obtain ⟨-, hfits, hwords, hrest⟩ := h.stacked
  unfold Frame.Fits at hfits
  dsimp only at hfits
  obtain ⟨hlow, hhigh, hback⟩ := hfits
  have hstack : c.memory.word t = regs .esp - 20 := h.stack
  obtain ⟨htrace, heip, hedi, hesi, hebx, hebp, heax', hesp, hmemory⟩ := restore_run hecx hedx hpage
    hfit hmagic hstack (by omega) (by omega) hwords
  have hesp' : restored.regs .esp = regs .esp := by
    have htop : regs .esp - 20 + 20 = regs .esp := by omega
    exact hesp.trans htop
  refine ⟨htrace, fun heq => hback (heip.symm.trans heq), ⟨heip, ?_, heax'.trans heax, ?_⟩, ?_,
    h.pending, ?_, fun x _ => congrFun hmemory x⟩
  · intro r hr
    simp only [List.mem_cons, List.not_mem_nil, or_false] at hr
    rcases hr with rfl | rfl | rfl | rfl | rfl
    · exact hebx
    · exact hebp
    · exact hesi
    · exact hedi
    · exact hesp'
  · intro x hfrom hto
    rw [hmemory]
    exact h.kept x hfrom hto
  · omega
  · rw [hmemory, hesp']
    exact hrest

theorem Rests.resume (h : Rests code t c.memory f fs) (hpage : t % PGSIZE = 0)
    (hfit : t + 4096 ≤ 4294967296) (hmagic : c.memory.word (t + 40) = T_MAGIC)
    (hecx : c.regs .ecx = t) (hedx : c.regs .edx = 0) (heax : c.regs .eax = prev)
    (hprev : prev < 4294967296) :
    let restored := c.run restoreRoutine
    (∀ x ∈ c.trace restoreRoutine, x.Runs t) ∧
      (restored.eip = code.firstSwitch → ∀ x ∈ restored.trace code.firstRoutine, x.Runs t) ∧
      Resumes code t prev f fs c
        (if restored.eip = code.firstSwitch then restored.run code.firstRoutine else restored) := by
  intro restored
  cases f with
  | fresh function aux =>
      obtain ⟨htrace, heip, hfirst, hresumes⟩ :=
        h.resume_fresh hpage hfit hmagic hecx hedx heax hprev
      rw [if_pos heip]
      exact ⟨htrace, fun _ => hfirst, hresumes⟩
  | switched regs back contents =>
      obtain ⟨htrace, heip, hresumes⟩ := h.resume_switched hpage hfit hmagic hecx hedx heax
      rw [if_neg heip]
      exact ⟨htrace, fun heq => absurd heq heip, hresumes⟩
  | starting function aux => exact absurd trivial h.resting
  | interrupted regs eip cs eflags => exact absurd trivial h.resting

end Resume

/-- Pages do not overlap. -/
theorem apart (ht : t % PGSIZE = 0) (hu : u % PGSIZE = 0) (hne : t ≠ u) :
    t + 4096 ≤ u ∨ u + 4096 ≤ t := by
  unfold PGSIZE at *
  omega

/-- What `thread_create` clears, in whole pages. -/
theorem not_cleared {new x : Nat} (hnew : new % PGSIZE = 0) (ht : t % PGSIZE = 0)
    (hout : ¬ Lib.offset new t < 4 * PGSIZE) (hlow : t ≤ x) (hhigh : x < t + 4096) :
    ¬ Lib.offset new x < 4 * PGSIZE := by
  unfold Lib.offset u32 PGSIZE at *
  omega

end Stacked

end NickOS3.Thread
