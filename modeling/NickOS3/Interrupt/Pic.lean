import NickOS3.Interrupt.Descriptors

/-!
# The interrupt controllers

`irq_remap` initialises the two controllers, and `idt_global_int_wrapper` sends them the end of
interrupt. A nest of interrupts leaves them as they have been.
-/

namespace NickOS3.Interrupt

/-! ## The controller -/

/-- An interrupt controller. -/
structure Pic where
  /-- The number of the initialization word that is expected next, 0 for none. -/
  expects : Nat
  single : Bool
  needsMode : Bool
  base : Nat
  cascade : Nat
  mode : Nat
  mask : Nat
  inService : Nat → Bool

namespace Pic

variable (p : Pic)

/-- The end of interrupt, for the line in service with the highest priority. -/
def endOfInterrupt : Pic :=
  match (List.range 8).find? p.inService with
  | some line => { p with inService := Function.update p.inService line false }
  | none => p

/-- A byte at the command port: an initialization or an end of interrupt; others are left out. -/
def command (value : Nat) : Pic :=
  if value / 16 % 2 = 1 then
    { p with expects := 2, single := value / 2 % 2 = 1, needsMode := value % 2 = 1, mode := 0,
             mask := 0, inService := fun _ => false }
  else if value = 0x20 then p.endOfInterrupt
  else p

/-- A byte at the data port: an initialization word or the mask. -/
def data (value : Nat) : Pic :=
  match p.expects with
  | 2 =>
      { p with base := value / 8 * 8,
               expects := if p.single then (if p.needsMode then 4 else 0) else 3 }
  | 3 => { p with cascade := value, expects := if p.needsMode then 4 else 0 }
  | 4 => { p with mode := value, expects := 0 }
  | _ => { p with mask := value }

/-- A request of the line is passed on: it is not masked, and no line of the same or of a higher
priority is in service. -/
def Admits (line : Nat) : Prop :=
  p.expects = 0 ∧ p.mask / 2 ^ line % 2 = 0 ∧ ∀ k ≤ line, p.inService k = false

instance (line : Nat) : Decidable (p.Admits line) := inferInstanceAs (Decidable (_ ∧ _ ∧ _))

def serve (line : Nat) : Pic := { p with inService := Function.update p.inService line true }

end Pic

/-- The two controllers, the second of them at line 2 of the first. -/
structure Pics where
  master : Pic
  slave : Pic

def PIC1_COMMAND : Nat := 0x20
def PIC1_DATA : Nat := 0x21
def PIC2_COMMAND : Nat := 0xA0
def PIC2_DATA : Nat := 0xA1
def PIC_EOI : Nat := 0x20

namespace Pics

variable (s : Pics)

/-- `outportb`, for the ports of the controllers. -/
def outportb (port value : Nat) : Pics :=
  if port = PIC1_COMMAND then { s with master := s.master.command value }
  else if port = PIC1_DATA then { s with master := s.master.data value }
  else if port = PIC2_COMMAND then { s with slave := s.slave.command value }
  else if port = PIC2_DATA then { s with slave := s.slave.data value }
  else s

/-- `irq_remap` -/
def irqRemap : Pics :=
  [(PIC1_COMMAND, 0x11), (PIC2_COMMAND, 0x11), (PIC1_DATA, 0x20), (PIC2_DATA, 0x28),
    (PIC1_DATA, 0x04), (PIC2_DATA, 0x02), (PIC1_DATA, 0x01), (PIC2_DATA, 0x01),
    (PIC1_DATA, 0x0), (PIC2_DATA, 0x0)].foldl (fun s write => s.outportb write.1 write.2) s

/-- The processor acknowledges a request: the vector, and the controllers with the line in
service. -/
def acknowledge (line : Nat) : Option (Nat × Pics) :=
  if line < 8 then
    if line ≠ 2 ∧ s.master.Admits line then
      some (s.master.base + line, { s with master := s.master.serve line })
    else none
  else if line < 16 ∧ s.slave.Admits (line - 8) ∧ s.master.Admits 2 then
    some (s.slave.base + (line - 8), ⟨s.master.serve 2, s.slave.serve (line - 8)⟩)
  else none

/-- What `idt_global_int_wrapper` sends behind the handlers. -/
def eoi (number : Nat) : Pics :=
  let s := if number ≥ 40 then s.outportb PIC2_COMMAND PIC_EOI else s
  s.outportb PIC1_COMMAND PIC_EOI

end Pics

/-! ## Nests of interrupts -/

/-- Interrupts behind one another and inside one another. Each handler runs to its end before the
one around it goes on, so none of them switches threads. -/
inductive Nest
  | done
  | irq (line : Nat) (inside rest : Nest)

namespace Nest

/-- The handlers that are entered, and the controllers at the end; none when a line is not passed
on or not handled. `enter` is what the processor does with a vector. -/
def run (enter : Nat → Option Nat) : Nest → Pics → Option (List Nat × Pics)
  | done, s => some ([], s)
  | irq line inside rest, s => do
      let (number, s) ← s.acknowledge line
      let handler ← enter number
      let (within, s) ← run enter inside s
      let (behind, s) ← run enter rest (s.eoi number)
      some (handler :: (within ++ behind), s)

def lines : Nest → List Nat
  | done => []
  | irq line inside rest => line :: (inside.lines ++ rest.lines)

/-- The line of the first controller that stands for a line. -/
def rank (line : Nat) : Nat := if line < 8 then line else 2

/-- Every line is one of a device and has a higher priority than the lines around it. -/
def Ranked : Nat → Nest → Prop
  | _, done => True
  | bound, irq line inside rest =>
      line < 16 ∧ line ≠ 2 ∧ rank line < bound ∧ inside.Ranked (rank line) ∧ rest.Ranked bound

end Nest

/-- Both controllers are initialised, and no line above `bound` is in service. -/
structure Pics.OpenAt (bound : Nat) (s : Pics) : Prop where
  masterReady : s.master.expects = 0 ∧ s.master.mask = 0 ∧ s.master.base = 32
  slaveReady : s.slave.expects = 0 ∧ s.slave.mask = 0 ∧ s.slave.base = 40
  below : ∀ k < bound, s.master.inService k = false
  top : bound < 8 → s.master.inService bound = true
  slave : 2 < bound → ∀ k < 8, s.slave.inService k = false

/-- A controller that `irq_remap` has initialised. -/
def Pic.initialised (base cascade : Nat) : Pic where
  expects := 0
  single := false
  needsMode := true
  base := base
  cascade := cascade
  mode := 1
  mask := 0
  inService _ := false

/-- The state of the controllers before `irq_remap` does not matter. -/
theorem Pics.irqRemap_eq (s : Pics) : s.irqRemap = ⟨.initialised 32 4, .initialised 40 2⟩ := rfl

theorem Pics.irqRemap_openAt (s : Pics) : s.irqRemap.OpenAt 8 := by
  rw [s.irqRemap_eq]
  exact ⟨⟨rfl, rfl, rfl⟩, ⟨rfl, rfl, rfl⟩, fun _ _ => rfl, fun h => absurd h (by decide),
    fun _ _ _ => rfl⟩

/-! ## One interrupt -/

@[simp] theorem Pic.serve_self (p : Pic) (line : Nat) : (p.serve line).inService line = true :=
  Function.update_self _ _ _

theorem Pic.serve_ne (p : Pic) {line k : Nat} (h : k ≠ line) :
    (p.serve line).inService k = p.inService k :=
  Function.update_of_ne h _ _

/-- The end of interrupt is for the line that has been acknowledged last. -/
theorem Pic.endOfInterrupt_serve {p : Pic} {line : Nat} (hline : line < 8)
    (hbelow : ∀ k ≤ line, p.inService k = false) : (p.serve line).endOfInterrupt = p := by
  have hfind : (List.range 8).find? (p.serve line).inService = some line := by
    rw [List.find?_range_eq_some]
    refine ⟨p.serve_self line, List.mem_range.mpr hline, fun k hk => ?_⟩
    rw [p.serve_ne (Nat.ne_of_lt hk), hbelow k (Nat.le_of_lt hk)]
    rfl
  have hrestored : Function.update (p.serve line).inService line false = p.inService := by
    rw [Pic.serve, Function.update_idem, ← hbelow line (Nat.le_refl line),
      Function.update_eq_self]
  unfold endOfInterrupt
  rw [hfind]
  dsimp only
  rw [hrestored]
  rfl

section Acknowledge

variable {bound line : Nat} {s : Pics}

theorem Pics.eoi_eq (s : Pics) (number : Nat) :
    s.eoi number =
      ⟨s.master.endOfInterrupt, if number ≥ 40 then s.slave.endOfInterrupt else s.slave⟩ := by
  unfold eoi
  split <;> rfl

namespace Pics.OpenAt

/-- A line of the first controller. -/
theorem acknowledge_master (h : s.OpenAt bound) (hbound : bound ≤ 8) (hline : line < bound)
    (hcascade : line ≠ 2) :
    ∃ s', s.acknowledge line = some (32 + line, s') ∧ s'.OpenAt line ∧ s'.eoi (32 + line) = s := by
  obtain ⟨hready, hmask, hbase⟩ := h.masterReady
  have hbelow : ∀ k ≤ line, s.master.inService k = false := fun k hk => h.below k (by omega)
  have hadmits : s.master.Admits line := ⟨hready, by rw [hmask, Nat.zero_div], hbelow⟩
  refine ⟨{ s with master := s.master.serve line }, ?_, ⟨⟨hready, hmask, hbase⟩, h.slaveReady,
    fun k hk => ?_, fun _ => s.master.serve_self line, fun hk => h.slave (by omega)⟩, ?_⟩
  · rw [acknowledge, if_pos (by omega), if_pos ⟨hcascade, hadmits⟩, hbase]
  · exact (s.master.serve_ne (Nat.ne_of_lt hk)).trans (hbelow k (by omega))
  · rw [eoi_eq, if_neg (by omega), Pic.endOfInterrupt_serve (by omega) hbelow]

/-- A line of the second controller. -/
theorem acknowledge_slave (h : s.OpenAt bound) (hbound : 2 < bound) (hlow : 8 ≤ line)
    (hhigh : line < 16) :
    ∃ s', s.acknowledge line = some (32 + line, s') ∧ s'.OpenAt 2 ∧ s'.eoi (32 + line) = s := by
  obtain ⟨hready, hmask, hbase⟩ := h.masterReady
  obtain ⟨hready', hmask', hbase'⟩ := h.slaveReady
  have hbelow : ∀ k ≤ 2, s.master.inService k = false := fun k hk => h.below k (by omega)
  have hbelow' : ∀ k ≤ line - 8, s.slave.inService k = false :=
    fun k hk => h.slave hbound k (by omega)
  have hadmits : s.master.Admits 2 := ⟨hready, by rw [hmask, Nat.zero_div], hbelow⟩
  have hadmits' : s.slave.Admits (line - 8) := ⟨hready', by rw [hmask', Nat.zero_div], hbelow'⟩
  refine ⟨⟨s.master.serve 2, s.slave.serve (line - 8)⟩, ?_, ⟨⟨hready, hmask, hbase⟩,
    ⟨hready', hmask', hbase'⟩, fun k hk => ?_, fun _ => s.master.serve_self 2,
    fun hk => absurd hk (by decide)⟩, ?_⟩
  · have hvector : s.slave.base + (line - 8) = 32 + line := by omega
    rw [acknowledge, if_neg (by omega), if_pos ⟨hhigh, hadmits', hadmits⟩, hvector]
  · exact (s.master.serve_ne (Nat.ne_of_lt hk)).trans (hbelow k (by omega))
  · rw [eoi_eq, if_pos (by omega), Pic.endOfInterrupt_serve (by decide) hbelow,
      Pic.endOfInterrupt_serve (by omega) hbelow']

/-- Exactly the lines of a higher priority than `bound` are passed on, each with its own vector.
The end of interrupt takes the acknowledgement back. -/
theorem acknowledge_some (h : s.OpenAt bound) (hbound : bound ≤ 8) (hline : line < 16)
    (hcascade : line ≠ 2) (hrank : Nest.rank line < bound) :
    ∃ s', s.acknowledge line = some (32 + line, s') ∧ s'.OpenAt (Nest.rank line) ∧
      s'.eoi (32 + line) = s := by
  unfold Nest.rank at hrank ⊢
  by_cases hlow : line < 8
  · rw [if_pos hlow] at hrank ⊢
    exact h.acknowledge_master hbound hrank hcascade
  · rw [if_neg hlow] at hrank ⊢
    exact h.acknowledge_slave hrank (by omega) hline

theorem acknowledge_none (h : s.OpenAt bound) (hbound : bound ≤ 8)
    (hno : ¬ (line < 16 ∧ line ≠ 2 ∧ Nest.rank line < bound)) : s.acknowledge line = none := by
  have hblocked : ∀ k, bound ≤ k → k < 8 → ¬ s.master.Admits k := by
    rintro k hk hlt ⟨-, -, hfree⟩
    exact absurd ((h.top (by omega)).symm.trans (hfree bound hk)) (by decide)
  unfold Nest.rank at hno
  unfold acknowledge
  by_cases hlow : line < 8
  · rw [if_pos hlow] at hno ⊢
    refine if_neg fun hyes => hblocked line ?_ hlow hyes.2
    by_contra hlt
    exact hno ⟨by omega, hyes.1, by omega⟩
  · rw [if_neg hlow] at hno ⊢
    refine if_neg fun hyes => hblocked 2 ?_ (by decide) hyes.2.2
    by_contra hlt
    exact hno ⟨hyes.1, by omega, by omega⟩

end Pics.OpenAt

end Acknowledge

/-! ## The whole nest -/

/-- A nest of interrupts is possible if and only if inside an interrupt there are only interrupts of
higher priority. Every line then enters its own handler, and the controllers are left as they have
been. -/
theorem Nest.run_openAt {enter : Nat → Option Nat} {handler : Nat → Nat}
    (henter : ∀ line < 16, enter (32 + line) = some (handler line)) (nest : Nest) :
    ∀ {bound : Nat} {s : Pics}, s.OpenAt bound → bound ≤ 8 →
      (nest.Ranked bound → nest.run enter s = some (nest.lines.map handler, s)) ∧
        (¬ nest.Ranked bound → nest.run enter s = none) := by
  induction nest with
  | done => exact fun _ _ => ⟨fun _ => rfl, fun h => absurd trivial h⟩
  | irq line inside rest ihInside ihRest =>
      intro bound s h hbound
      by_cases hline : line < 16 ∧ line ≠ 2 ∧ rank line < bound
      · obtain ⟨s', hack, hopen, heoi⟩ :=
          h.acknowledge_some hbound hline.1 hline.2.1 hline.2.2
        have hrank : rank line ≤ 8 := by omega
        obtain ⟨hinside, hinside'⟩ := ihInside hopen hrank
        obtain ⟨hrest, hrest'⟩ := ihRest h hbound
        constructor
        · rintro ⟨-, -, -, hranked, hranked'⟩
          rw [run, hack]
          simp only [Option.bind_eq_bind, Option.bind_some, henter line hline.1, hinside hranked,
            heoi, hrest hranked', lines, List.map_cons, List.map_append]
        · intro hno
          rw [run, hack]
          simp only [Option.bind_eq_bind, Option.bind_some, henter line hline.1]
          by_cases hranked : inside.Ranked (rank line)
          · have hranked' : ¬ rest.Ranked bound := fun hyes =>
              hno ⟨hline.1, hline.2.1, hline.2.2, hranked, hyes⟩
            simp only [hinside hranked, Option.bind_some, heoi, hrest' hranked', Option.bind_none]
          · simp only [hinside' hranked, Option.bind_none]
      · refine ⟨fun hyes => absurd ⟨hyes.1, hyes.2.1, hyes.2.2.1⟩ hline, fun _ => ?_⟩
        rw [run, h.acknowledge_none hbound hline]
        rfl

/-- Behind `gdt_init` and `idt_init`, whatever the controllers have been: where no handler switches
threads, a nest of hardware interrupts is possible if and only if inside an interrupt there are
only interrupts of higher priority. Every line then enters its own stub, and the controllers are
left as they have been. -/
theorem irqs_handled (h : Handlers) {m : Bytes} {idt gdt : Nat}
    (hapart : idt + 2048 ≤ gdt ∨ gdt + 48 ≤ idt)
    (hstorage : ∀ line < 16, bits m (idt + 8 * (32 + line) + 5) 4 1 = 0)
    (s : Pics) (nest : Nest) :
    let enter := deliver (idtInit h idt (gdtInit gdt m)) (idtr idt) (gdtr gdt)
    (nest.Ranked 8 → nest.run enter s.irqRemap =
        some (nest.lines.map fun line => h.idtInt (32 + line), s.irqRemap)) ∧
      (¬ nest.Ranked 8 → nest.run enter s.irqRemap = none) := by
  intro enter
  refine nest.run_openAt (fun line hline => ?_) s.irqRemap_openAt (Nat.le_refl 8)
  have hgate : HasGate (32 + line) := .inl (by omega)
  have hhandler : h.handler (32 + line) = h.idtInt (32 + line) := if_neg (by omega)
  change deliver _ _ _ (32 + line) = _
  rw [deliver_some hapart h hgate, if_pos (hstorage line hline), hhandler]

/-- The timer inside an interrupt of the mouse, with controllers as they are after power on. -/
theorem irqs_handled_timer :
    let s : Pics := ⟨.initialised 8 4, .initialised 112 2⟩
    let nest : Nest := .irq 12 (.irq 0 .done .done) .done
    let enter :=
      deliver (idtInit someHandlers 4096 (gdtInit 8192 fun _ => 0)) (idtr 4096) (gdtr 8192)
    (nest.Ranked 8 → nest.run enter s.irqRemap =
        some (nest.lines.map fun line => someHandlers.idtInt (32 + line), s.irqRemap)) ∧
      (¬ nest.Ranked 8 → nest.run enter s.irqRemap = none) := by
  have hstorage : ∀ line < 16, bits (fun _ => 0) (4096 + 8 * (32 + line) + 5) 4 1 = 0 := by
    intro line _
    change Foundation.field 4 1 (0 : UInt8).toNat = 0
    decide
  exact irqs_handled someHandlers (.inl (by decide)) hstorage _ _

end NickOS3.Interrupt
