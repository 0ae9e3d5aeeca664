import NickOS3.Foundation.Runs
import NickOS3.Thread.Synch

/-!
# Runs of the threads

A run starts where `thread_init` has enabled interrupts. A step is a timer interrupt, which
can come whenever interrupts are enabled, or the next step of the running thread; a thread
in code of its own makes an arbitrary call. The heap word that a null thread pointer reads
as a status changes at any time.
-/

namespace NickOS3.Thread

open Foundation

/-- What a thread does next in code of its own. -/
inductive KernelCall
  | intDisable
  | intEnable
  | threadYield
  | threadBlock
  | threadUnblock (t : Nat)
  | threadCreate (null : Bool)
  | threadSleep (t ticks : Nat)
  | semaInit (n value : Nat)
  | semaDown (n : Nat)
  | semaUp (n : Nat)
  | lockInit (l : Nat)
  | lockAccquire (l : Nat)
  | lockRelease (l : Nat)
  | returns

inductive Action
  | tick
  | run (call : KernelCall)
  | heapWord (st : ThreadStatus)

namespace Kernel

variable (s : Kernel)

/-- A pointer to the thread `t` is known once `thread_create` has listed it. -/
def Known (t : Nat) : Prop := t ∈ s.created ∨ s.isThread t = false

instance (t : Nat) : Decidable (s.Known t) := inferInstanceAs (Decidable (_ ∨ _))

/-- A call from a thread's own code. Semaphores and locks are set up once, before any
other use. -/
def call : KernelCall → Option Kernel
  | .intDisable => some s.intDisable
  | .intEnable => some s.intEnable
  | .threadYield => some s.threadYield
  | .threadBlock => some (s.goto .blocked).threadBlock
  | .threadUnblock t => if s.Known t then some (s.threadUnblock t false) else none
  | .threadCreate null => some (s.threadCreate (if null then .null else .code))
  | .threadSleep t ticks => if s.Known t then some (s.threadSleep t ticks) else none
  | .semaInit n value =>
      if value < 4294967296 ∧ .sema n ∉ s.initialised then some (s.semaInit (.sema n) value)
      else none
  | .semaDown n => if .sema n ∈ s.initialised then some (s.semaDown (.sema n)) else none
  | .semaUp n => if .sema n ∈ s.initialised then some (s.semaUp (.sema n)) else none
  | .lockInit l => if .lock l ∉ s.initialised then some (s.lockInit l) else none
  | .lockAccquire l => if .lock l ∈ s.initialised then some (s.lockAccquire l) else none
  | .lockRelease l => if .lock l ∈ s.initialised then some (s.lockRelease l) else none
  | .returns => some s.runReturn

/-- The next step of the running thread. -/
def advance (call : KernelCall) : Option Kernel :=
  match s.place s.current with
  | .entry function => some (s.run function)
  | .user => s.call call
  | .dying => some s.runEnd
  | .dead => some { s with outcome := .ranOff }
  | .initDown => some (s.semaDown .started)
  | .yielded level => some (s.yieldReturn level)
  | .blocked => some (s.goto .user)
  | .waiting r level => some (s.semaDownLoop r level)
  | .unblocking t created => some (s.unblockReturn t created)
  | .createAppend new => some (s.createAppend new)
  | .createUnblock new => some (s.threadUnblock new true)
  | .sleeping t => some (s.sleepOff t)
  | .accquireDown l => some (s.semaDown (.lock l))
  | .setHolder l => some (s.setHolder l)
  | .clearHolder l => some (s.clearHolder l)
  | .releaseUp l => some (s.releaseUp l)
  | .idleStart => some s.idleStart
  | .idleUp => some s.idleUp
  | .idleLoop => some (s.intDisable.goto .idleBlock)
  | .idleBlock => some (s.goto .idleHlt).threadBlock
  | .idleHlt => some (s.intEnable.goto .idleLoop)

/-- A step, none when it cannot happen. -/
def step (a : Action) : Option Kernel :=
  if s.outcome ≠ .running then none
  else
    match a with
    | .tick => if s.intFlag then some s.threadTick else none
    | .run call => if s.inHandler s.current then some s.tickReturn else s.advance call
    | .heapWord st => some (s.setStatus 0 st)

variable {s} in
/-- What a step can be. -/
theorem step_cases {P : Kernel → Prop} {a : Action} {s' : Kernel} (hstep : s.step a = some s')
    (tick : a = .tick → s.outcome = .running → s.intFlag = true → P s.threadTick)
    (back : s.outcome = .running → s.inHandler s.current = true → P s.tickReturn)
    (on : ∀ c s', a = .run c → s.outcome = .running → s.inHandler s.current = false →
      s.advance c = some s' → P s')
    (word : s.outcome = .running → ∀ st, P (s.setStatus 0 st)) : P s' := by
  unfold step at hstep
  split at hstep
  case isTrue => exact absurd hstep (by simp)
  case isFalse hrun =>
    have hrun : s.outcome = .running := by simpa using hrun
    cases a with
    | tick =>
        simp only [Option.ite_none_right_eq_some, Option.some.injEq] at hstep
        obtain ⟨hflag, rfl⟩ := hstep
        exact tick rfl hrun hflag
    | run c =>
        dsimp only at hstep
        split at hstep
        case isTrue hin =>
          obtain rfl := Option.some.inj hstep
          exact back hrun hin
        case isFalse hin => exact on c s' rfl hrun (by simpa using hin) hstep
    | heapWord st =>
        obtain rfl := Option.some.inj hstep
        exact word hrun st

/-- The state where `thread_init` has enabled interrupts: it has made the kernel thread,
`init_started` and the idle thread. -/
structure Start : Prop where
  current : s.current = 1
  intFlag : s.intFlag = true
  inService : s.inService = false
  kernel : s.status 1 = .running
  idle : s.status 2 = .ready
  ready : s.readyThreads = [2]
  all : s.allThreads = [1, 2]
  sleepers : s.sleeperList = []
  idleThread : s.idleThread = 0
  numThreads : s.numThreads = 2
  started : s.semas .started = ⟨0, []⟩
  place₁ : s.place 1 = .initDown
  place₂ : s.place 2 = .entry .idle
  inHandler : ∀ t, s.inHandler t = false
  outcome : s.outcome = .running
  created : s.created = [2, 1]
  kills : s.kills = []
  completions : s.completions = []
  sharedOps : s.sharedOps = []
  pending : ∀ t, s.pending t = []
  returned : s.returned = []
  initialised : s.initialised = [.started]
  counts : s.counts .started = ⟨0, 0, 0⟩

end Kernel

/-- Runs of the kernel's threads. -/
def kernelMachine : Machine Kernel Action where
  start s := s.Start
  step s a s' := s.step a = some s'

theorem Kernel.running_of_step (s : Kernel) (a : Action) (s' : Kernel)
    (hstep : kernelMachine.step s a s') : s.outcome = .running := by
  by_contra hstop
  have hnone : s.step a = none := if_pos hstop
  exact absurd (hnone.symm.trans hstep) nofun

/-- The start with cleared memory and no tick counted. -/
def startKernel : Kernel where
  current := 1
  intFlag := true
  inService := false
  status t := if t = 1 then .running else .ready
  readyThreads := [2]
  allThreads := [1, 2]
  sleeperList := []
  idleThread := 0
  tickCount := 0
  numThreads := 2
  semas _ := ⟨0, []⟩
  holder _ := 0
  place t := if t = 1 then .initDown else .entry .idle
  inHandler _ := false
  outcome := .running
  created := [2, 1]
  kills := []
  completions := []
  sharedOps := []
  pending _ := []
  returned := []
  initialised := [.started]
  counts _ := ⟨0, 0, 0⟩
  inside _ := []

theorem startKernel_start : startKernel.Start := by
  constructor <;> first | rfl | exact fun _ => rfl

/-- A list of steps in turn, each with the guard's consent. -/
def Kernel.steps (guard : Kernel → Action → Bool) (s : Kernel) (as : List Action) :
    Option Kernel :=
  Machine.along Kernel.step guard s as

theorem reach_steps {M : Machine Kernel Action} {allowed : Kernel → Action → Prop}
    {guard : Kernel → Action → Bool} {s s' : Kernel} {as : List Action}
    (hguard : ∀ s a, guard s a = true → allowed s a)
    (hstep : ∀ s a s', guard s a = true → s.step a = some s' → M.step s a s')
    (run : M.Reach allowed s) (h : s.steps guard as = some s') : M.Reach allowed s' :=
  run.along hguard hstep h

end NickOS3.Thread
