import NickOS3.Foundation.BitFields
import NickOS3.Lib.Blocks
import Mathlib.Data.List.Nodup
import Mathlib.Logic.Function.Basic

/-!
# Descriptors

`gdt_init` and `idt_init` write the descriptor tables of the processor. The processor goes to a
handler through a gate in one table and a segment in the other.
-/

namespace NickOS3.Interrupt

open Foundation Lib

/-! ## Memory in halves and bit fields -/

/-- Two bytes from `a` on. -/
def half (m : Bytes) (a : Nat) : Nat := (m a).toNat + 256 * (m (a + 1)).toNat

/-- `*(uint16_t*) a = v` -/
def storeHalf (a v : Nat) (m : Bytes) : Bytes := fun x =>
  if a ≤ x ∧ x < a + 2 then byteOf v (x - a) else m x

/-- `*(uint8_t*) a = v` -/
def storeByte (a v : Nat) (m : Bytes) : Bytes := Function.update m a (UInt8.ofNat v)

/-- A bit field in the byte at `a`. -/
def bits (m : Bytes) (a lo width : Nat) : Nat := field lo width (m a).toNat

/-- Sets a bit field in the byte at `a`. -/
def storeBits (a lo width v : Nat) (m : Bytes) : Bytes :=
  storeByte a (setField lo width v (m a).toNat) m

section Stores

variable {a b v lo width lo' width' : Nat} {m : Bytes}

theorem storeHalf_of_outside {x : Nat} (h : x < a ∨ a + 2 ≤ x) : storeHalf a v m x = m x :=
  if_neg (by omega)

theorem storeByte_of_ne {x : Nat} (h : x ≠ a) : storeByte a v m x = m x :=
  Function.update_of_ne h _ _

theorem storeBits_of_ne {x : Nat} (h : x ≠ a) : storeBits a lo width v m x = m x :=
  storeByte_of_ne h

theorem storeByte_toNat (hv : v < 256) : (storeByte a v m a).toNat = v := by
  rw [storeByte, Function.update_self, UInt8.toNat_ofNat', Nat.mod_eq_of_lt hv]

theorem half_storeHalf (hv : v < 65536) : half (storeHalf a v m) a = v := by
  have h₀ : (storeHalf a v m a).toNat = v % 256 := by
    rw [storeHalf, if_pos (by omega), Nat.sub_self, byteOf, UInt8.toNat_ofNat', Nat.pow_zero,
      Nat.div_one]
  have h₁ : (storeHalf a v m (a + 1)).toNat = v / 256 % 256 := by
    rw [storeHalf, if_pos (by omega), Nat.add_sub_cancel_left, byteOf, UInt8.toNat_ofNat',
      Nat.pow_one]
  rw [half, h₀, h₁]
  omega

theorem half_congr {m' : Bytes} (h : ∀ x, a ≤ x → x < a + 2 → m' x = m x) :
    half m' a = half m a := by
  rw [half, half, h a (by omega) (by omega), h (a + 1) (by omega) (by omega)]

theorem bits_congr {m' : Bytes} (h : m' a = m a) : bits m' a lo width = bits m a lo width := by
  rw [bits, bits, h]

theorem storeBits_toNat (h : lo + width ≤ 8) :
    (storeBits a lo width v m a).toNat = setField lo width v (m a).toNat :=
  storeByte_toNat (setField_lt (m a).toNat_lt h)

theorem bits_storeBits (h : lo + width ≤ 8) :
    bits (storeBits a lo width v m) a lo width = v % 2 ^ width := by
  rw [bits, storeBits_toNat h, field_setField]

theorem bits_storeBits_ne (h : lo + width ≤ 8) (hne : lo' + width' ≤ lo ∨ lo + width ≤ lo') :
    bits (storeBits a lo width v m) a lo' width' = bits m a lo' width' := by
  rw [bits, storeBits_toNat h]
  exact hne.elim field_setField_below field_setField_above

end Stores

/-! ## The tables -/

/-- What `lgdt` and `lidt` load. -/
structure TableRegister where
  base : Nat
  limit : Nat

/-- A gate in the fields of `idt_entry`. -/
structure Gate where
  offset : Nat
  kernelCs : Nat
  type : Nat
  storageSegment : Nat
  privilegeLevel : Nat
  present : Nat

def gateAt (m : Bytes) (a : Nat) : Gate where
  offset := half m a + 65536 * half m (a + 6)
  kernelCs := half m (a + 2)
  type := bits m (a + 5) 0 4
  storageSegment := bits m (a + 5) 4 1
  privilegeLevel := bits m (a + 5) 5 2
  present := bits m (a + 5) 7 1

/-- `idt_set_descriptor` -/
def idtSetDescriptor (idt vector handler : Nat) (userInterrupt : Bool) (m : Bytes) : Bytes :=
  let descriptor := idt + 8 * vector
  let m := storeHalf descriptor (handler % 65536) m
  let m := storeHalf (descriptor + 2) 8 m
  let m := storeHalf (descriptor + 6) (handler / 65536) m
  let m := storeByte (descriptor + 4) 0 m
  let m := storeBits (descriptor + 5) 7 1 1 m
  let m := storeBits (descriptor + 5) 5 2 (if userInterrupt then 3 else 1) m
  storeBits (descriptor + 5) 0 4 15 m

/-- Where the linker puts `idt_exc0` and so on. -/
structure Handlers where
  idtExc : Nat → Nat
  idtInt : Nat → Nat
  idtExc_lt : ∀ v, idtExc v < 4294967296
  idtInt_lt : ∀ v, idtInt v < 4294967296

/-- The handler that `idt_init` passes for a vector. -/
def Handlers.handler (h : Handlers) (vector : Nat) : Nat :=
  if vector < 32 then h.idtExc vector else h.idtInt vector

/-- The calls of `idt_set_descriptor`: exceptions, hardware interrupts and the system call. -/
def idtVectors : List (Nat × Bool) := (List.range 48).map (·, false) ++ [(50, true)]

/-- `idt_init`, up to `irq_remap`. -/
def idtInit (h : Handlers) (idt : Nat) (m : Bytes) : Bytes :=
  idtVectors.foldl (fun m p => idtSetDescriptor idt p.1 (h.handler p.1) p.2 m) m

/-- What `idt_init` loads. -/
def idtr (idt : Nat) : TableRegister := ⟨idt, 8 * 256 - 1⟩

/-- A segment in the fields of `gdt_entry`. -/
structure Segment where
  base : Nat
  limit : Nat
  readWrite : Nat
  direction : Nat
  executable : Nat
  reserved : Nat
  privilegeLevel : Nat
  present : Nat
  size : Nat
  granularity : Nat
  deriving DecidableEq

def segmentAt (m : Bytes) (a : Nat) : Segment where
  base := half m (a + 2) + 65536 * (m (a + 4)).toNat + 16777216 * (m (a + 7)).toNat
  limit := half m a + 65536 * bits m (a + 6) 0 4
  readWrite := bits m (a + 5) 1 1
  direction := bits m (a + 5) 2 1
  executable := bits m (a + 5) 3 1
  reserved := bits m (a + 5) 4 1
  privilegeLevel := bits m (a + 5) 5 2
  present := bits m (a + 5) 7 1
  size := bits m (a + 6) 6 1
  granularity := bits m (a + 6) 7 1

/-- `gdt_fill_entry` -/
def gdtFillEntry (gdt index : Nat) (executable : Bool) (privilegeLevel : Nat) (m : Bytes) : Bytes :=
  let entry := gdt + 8 * index
  let m := storeHalf entry 65535 m
  let m := storeHalf (entry + 2) 0 m
  let m := storeByte (entry + 4) 0 m
  -- accessed, read_write, direction, executable, reserved_1, privilege_level, present
  let m := storeBits (entry + 5) 0 1 0 m
  let m := storeBits (entry + 5) 1 1 1 m
  let m := storeBits (entry + 5) 2 1 0 m
  let m := storeBits (entry + 5) 3 1 (if executable then 1 else 0) m
  let m := storeBits (entry + 5) 4 1 1 m
  let m := storeBits (entry + 5) 5 2 privilegeLevel m
  let m := storeBits (entry + 5) 7 1 1 m
  -- limit_16_19, reserved_2, size, granularity
  let m := storeBits (entry + 6) 0 4 15 m
  let m := storeBits (entry + 6) 4 2 0 m
  let m := storeBits (entry + 6) 6 1 1 m
  let m := storeBits (entry + 6) 7 1 1 m
  storeByte (entry + 7) 0 m

/-- `gdt_init` -/
def gdtInit (gdt : Nat) (m : Bytes) : Bytes :=
  let m := gdtFillEntry gdt 1 true 0 m
  let m := gdtFillEntry gdt 2 false 0 m
  let m := gdtFillEntry gdt 3 true 3 m
  gdtFillEntry gdt 4 false 3 m

/-- What `gdt_init` loads. -/
def gdtr (gdt : Nat) : TableRegister := ⟨gdt, 8 * 6 - 1⟩

/-! ## The processor -/

/-- The segment behind a selector; there is no local table. -/
def segment (m : Bytes) (table : TableRegister) (selector : Nat) : Option Segment :=
  let index := selector / 8
  if index ≠ 0 ∧ selector / 4 % 2 = 0 ∧ 8 * index + 7 ≤ table.limit then
    some (segmentAt m (table.base + 8 * index))
  else none

/-- The last offset in a segment. -/
def Segment.top (s : Segment) : Nat :=
  if s.granularity = 1 then 4096 * s.limit + 4095 else s.limit

/-- The processor may enter the segment as code from ring 0. -/
def Segment.Enters (s : Segment) (offset : Nat) : Prop :=
  s.reserved = 1 ∧ s.executable = 1 ∧ s.present = 1 ∧ s.privilegeLevel = 0 ∧ offset ≤ s.top

/-- The gate is a 32-bit interrupt or trap gate that the processor may go through; in ring 0 an
`int` instruction may use it, whatever its privilege level. -/
def Gate.Opens (g : Gate) : Prop :=
  g.present = 1 ∧ g.storageSegment = 0 ∧ (g.type = 14 ∨ g.type = 15)

instance (s : Segment) (offset : Nat) : Decidable (s.Enters offset) :=
  inferInstanceAs (Decidable (_ ∧ _ ∧ _ ∧ _ ∧ _))

instance (g : Gate) : Decidable g.Opens := inferInstanceAs (Decidable (_ ∧ _ ∧ _))

/-- Where the processor goes when a vector is raised in ring 0, which the kernel never leaves; none
when it raises another exception instead. No stack is switched. -/
def deliver (m : Bytes) (idt gdt : TableRegister) (vector : Nat) : Option Nat :=
  if 8 * vector + 7 ≤ idt.limit then
    let gate := gateAt m (idt.base + 8 * vector)
    if gate.Opens then
      match segment m gdt gate.kernelCs with
      | some s => if s.Enters gate.offset then some (u32 (s.base + gate.offset)) else none
      | none => none
    else none
  else none

/-! ## Gates -/

section Gates

variable {m m' : Bytes} {a idt vector handler : Nat} {user : Bool}

theorem gateAt_congr (h : ∀ x, a ≤ x → x < a + 8 → m' x = m x) : gateAt m' a = gateAt m a := by
  unfold gateAt
  rw [half_congr fun x hx hx' => h x (by omega) (by omega),
    half_congr fun x hx hx' => h x (by omega) (by omega),
    half_congr fun x hx hx' => h x (by omega) (by omega),
    bits_congr (h _ (by omega) (by omega)), bits_congr (h _ (by omega) (by omega)),
    bits_congr (h _ (by omega) (by omega)), bits_congr (h _ (by omega) (by omega))]

theorem idtSetDescriptor_of_outside {x : Nat}
    (h : x < idt + 8 * vector ∨ idt + 8 * vector + 8 ≤ x) :
    idtSetDescriptor idt vector handler user m x = m x := by
  unfold idtSetDescriptor
  rw [storeBits_of_ne (by omega), storeBits_of_ne (by omega), storeBits_of_ne (by omega),
    storeByte_of_ne (by omega), storeHalf_of_outside (by omega), storeHalf_of_outside (by omega),
    storeHalf_of_outside (by omega)]

/-- The processor reads back what `idt_set_descriptor` has been given. It leaves one bit as it has
been. -/
theorem gateAt_idtSetDescriptor (m : Bytes) (hhandler : handler < 4294967296) :
    gateAt (idtSetDescriptor idt vector handler user m) (idt + 8 * vector) =
      { offset := handler, kernelCs := 8, type := 15,
        storageSegment := bits m (idt + 8 * vector + 5) 4 1,
        privilegeLevel := if user then 3 else 1, present := 1 } := by
  unfold idtSetDescriptor
  generalize idt + 8 * vector = d
  obtain ⟨m₁, hm₁⟩ : ∃ m₁, storeHalf d (handler % 65536) m = m₁ := ⟨_, rfl⟩
  obtain ⟨m₂, hm₂⟩ : ∃ m₂, storeHalf (d + 2) 8 m₁ = m₂ := ⟨_, rfl⟩
  obtain ⟨m₃, hm₃⟩ : ∃ m₃, storeHalf (d + 6) (handler / 65536) m₂ = m₃ := ⟨_, rfl⟩
  obtain ⟨m₄, hm₄⟩ : ∃ m₄, storeByte (d + 4) 0 m₃ = m₄ := ⟨_, rfl⟩
  obtain ⟨m₇, hm₇⟩ : ∃ m₇, storeBits (d + 5) 0 4 15 (storeBits (d + 5) 5 2
    (if user then 3 else 1) (storeBits (d + 5) 7 1 1 m₄)) = m₇ := ⟨_, rfl⟩
  simp only [hm₁, hm₂, hm₃, hm₄, hm₇]
  -- the other fields lie beside the byte of the bit fields
  have hlast : ∀ x ≠ d + 5, m₇ x = m₄ x := by
    intro x hx
    rw [← hm₇, storeBits_of_ne hx, storeBits_of_ne hx, storeBits_of_ne hx]
  have hlow : half m₇ d = handler % 65536 := by
    have hstored : half m₁ d = handler % 65536 := hm₁ ▸ half_storeHalf (by omega)
    rw [← hstored]
    refine half_congr fun x hx hx' => ?_
    rw [hlast x (by omega), ← hm₄, storeByte_of_ne (by omega), ← hm₃,
      storeHalf_of_outside (by omega), ← hm₂, storeHalf_of_outside (by omega)]
  have hcs : half m₇ (d + 2) = 8 := by
    have hstored : half m₂ (d + 2) = 8 := hm₂ ▸ half_storeHalf (by decide)
    rw [← hstored]
    refine half_congr fun x hx hx' => ?_
    rw [hlast x (by omega), ← hm₄, storeByte_of_ne (by omega), ← hm₃,
      storeHalf_of_outside (by omega)]
  have hhigh : half m₇ (d + 6) = handler / 65536 := by
    have hstored : half m₃ (d + 6) = handler / 65536 := hm₃ ▸ half_storeHalf (by omega)
    rw [← hstored]
    refine half_congr fun x hx hx' => ?_
    rw [hlast x (by omega), ← hm₄, storeByte_of_ne (by omega)]
  have hbyte : m₄ (d + 5) = m (d + 5) := by
    rw [← hm₄, storeByte_of_ne (by omega), ← hm₃, storeHalf_of_outside (by omega), ← hm₂,
      storeHalf_of_outside (by omega), ← hm₁, storeHalf_of_outside (by omega)]
  have htype : bits m₇ (d + 5) 0 4 = 15 := by
    rw [← hm₇, bits_storeBits (by decide)]
    rfl
  have hstorage : bits m₇ (d + 5) 4 1 = bits m (d + 5) 4 1 := by
    rw [← hm₇, bits_storeBits_ne (by decide) (by decide), bits_storeBits_ne (by decide) (by decide),
      bits_storeBits_ne (by decide) (by decide), bits_congr hbyte]
  have hlevel : bits m₇ (d + 5) 5 2 = if user then 3 else 1 := by
    rw [← hm₇, bits_storeBits_ne (by decide) (by decide), bits_storeBits (by decide)]
    cases user <;> rfl
  have hpresent : bits m₇ (d + 5) 7 1 = 1 := by
    rw [← hm₇, bits_storeBits_ne (by decide) (by decide), bits_storeBits_ne (by decide) (by decide),
      bits_storeBits (by decide)]
    rfl
  have hoffset : handler % 65536 + 65536 * (handler / 65536) = handler :=
    Nat.mod_add_div handler 65536
  rw [gateAt, hlow, hcs, hhigh, hoffset, htype, hstorage, hlevel, hpresent]

end Gates

/-! ## Segments -/

/-- A segment of the whole address space. -/
def flat (executable : Bool) (privilegeLevel : Nat) : Segment where
  base := 0
  limit := 1048575
  readWrite := 1
  direction := 0
  executable := if executable then 1 else 0
  reserved := 1
  privilegeLevel := privilegeLevel
  present := 1
  size := 1
  granularity := 1

section Segments

variable {m m' : Bytes} {a gdt index level : Nat} {executable : Bool}

theorem segmentAt_congr (h : ∀ x, a ≤ x → x < a + 8 → m' x = m x) :
    segmentAt m' a = segmentAt m a := by
  have hbits : ∀ k < 8, ∀ lo width, bits m' (a + k) lo width = bits m (a + k) lo width :=
    fun k hk _ _ => bits_congr (h _ (by omega) (by omega))
  unfold segmentAt
  rw [half_congr fun x hx hx' => h x (by omega) (by omega), h (a + 4) (by omega) (by omega),
    h (a + 7) (by omega) (by omega), half_congr fun x hx hx' => h x (by omega) (by omega)]
  simp only [hbits 5 (by decide), hbits 6 (by decide)]

theorem gdtFillEntry_of_outside {x : Nat} (h : x < gdt + 8 * index ∨ gdt + 8 * index + 8 ≤ x) :
    gdtFillEntry gdt index executable level m x = m x := by
  have hne : ∀ k < 8, x ≠ gdt + 8 * index + k := fun k hk => by omega
  unfold gdtFillEntry
  rw [storeByte_of_ne (hne 7 (by decide))]
  iterate 4 rw [storeBits_of_ne (hne 6 (by decide))]
  iterate 7 rw [storeBits_of_ne (hne 5 (by decide))]
  rw [storeByte_of_ne (hne 4 (by decide)), storeHalf_of_outside (by omega),
    storeHalf_of_outside (by omega)]

/-- The processor reads back a flat segment. -/
theorem segmentAt_gdtFillEntry (m : Bytes) (hlevel : level < 4) :
    segmentAt (gdtFillEntry gdt index executable level m) (gdt + 8 * index) =
      flat executable level := by
  unfold gdtFillEntry
  generalize gdt + 8 * index = e
  obtain ⟨m₁, hm₁⟩ : ∃ m₁, storeHalf e 65535 m = m₁ := ⟨_, rfl⟩
  obtain ⟨m₂, hm₂⟩ : ∃ m₂, storeHalf (e + 2) 0 m₁ = m₂ := ⟨_, rfl⟩
  obtain ⟨m₃, hm₃⟩ : ∃ m₃, storeByte (e + 4) 0 m₂ = m₃ := ⟨_, rfl⟩
  obtain ⟨m₁₀, hm₁₀⟩ : ∃ m₁₀, storeBits (e + 5) 7 1 1 (storeBits (e + 5) 5 2 level
    (storeBits (e + 5) 4 1 1 (storeBits (e + 5) 3 1 (if executable then 1 else 0)
      (storeBits (e + 5) 2 1 0 (storeBits (e + 5) 1 1 1 (storeBits (e + 5) 0 1 0 m₃)))))) = m₁₀ :=
    ⟨_, rfl⟩
  obtain ⟨m₁₄, hm₁₄⟩ : ∃ m₁₄, storeBits (e + 6) 7 1 1 (storeBits (e + 6) 6 1 1
    (storeBits (e + 6) 4 2 0 (storeBits (e + 6) 0 4 15 m₁₀))) = m₁₄ := ⟨_, rfl⟩
  simp only [hm₁, hm₂, hm₃, hm₁₀, hm₁₄]
  -- the bytes of the two rows of bit fields
  have hflags : ∀ x ≠ e + 6, m₁₄ x = m₁₀ x := by
    intro x hx
    rw [← hm₁₄]
    iterate 4 rw [storeBits_of_ne hx]
  have haccess : ∀ x ≠ e + 5, m₁₀ x = m₃ x := by
    intro x hx
    rw [← hm₁₀]
    iterate 7 rw [storeBits_of_ne hx]
  have hlow : half (storeByte (e + 7) 0 m₁₄) e = 65535 := by
    have hstored : half m₁ e = 65535 := hm₁ ▸ half_storeHalf (by decide)
    rw [← hstored]
    refine half_congr fun x hx hx' => ?_
    rw [storeByte_of_ne (by omega), hflags x (by omega), haccess x (by omega), ← hm₃,
      storeByte_of_ne (by omega), ← hm₂, storeHalf_of_outside (by omega)]
  have hbase : half (storeByte (e + 7) 0 m₁₄) (e + 2) = 0 := by
    have hstored : half m₂ (e + 2) = 0 := hm₂ ▸ half_storeHalf (by decide)
    rw [← hstored]
    refine half_congr fun x hx hx' => ?_
    rw [storeByte_of_ne (by omega), hflags x (by omega), haccess x (by omega), ← hm₃,
      storeByte_of_ne (by omega)]
  have hmiddle : (storeByte (e + 7) 0 m₁₄ (e + 4)).toNat = 0 := by
    rw [storeByte_of_ne (by omega), hflags _ (by omega), haccess _ (by omega), ← hm₃]
    exact storeByte_toNat (by decide)
  have hhigh : (storeByte (e + 7) 0 m₁₄ (e + 7)).toNat = 0 := storeByte_toNat (by decide)
  have hfirst : ∀ lo width, bits (storeByte (e + 7) 0 m₁₄) (e + 5) lo width =
      bits m₁₀ (e + 5) lo width := by
    intro lo width
    exact bits_congr (by rw [storeByte_of_ne (by omega), hflags _ (by omega)])
  have hsecond : ∀ lo width, bits (storeByte (e + 7) 0 m₁₄) (e + 6) lo width =
      bits m₁₄ (e + 6) lo width := by
    intro lo width
    exact bits_congr (by rw [storeByte_of_ne (by omega)])
  rw [segmentAt, hlow, hbase, hmiddle, hhigh]
  simp only [hfirst, hsecond]
  rw [← hm₁₀, ← hm₁₄]
  simp (disch := decide) only [bits_storeBits, bits_storeBits_ne, flat]
  have hlevel : level % 2 ^ 2 = level := Nat.mod_eq_of_lt hlevel
  rw [hlevel]
  cases executable <;> rfl

end Segments

/-! ## The whole tables -/

section Tables

variable {m : Bytes} {idt gdt : Nat} {h : Handlers}

theorem Handlers.handler_lt (h : Handlers) (vector : Nat) : h.handler vector < 4294967296 := by
  unfold handler
  split
  · exact h.idtExc_lt vector
  · exact h.idtInt_lt vector

/-- The gate of a vector, in memory that has been `m` before. -/
def installed (h : Handlers) (idt : Nat) (m : Bytes) (vector : Nat) (user : Bool) : Gate where
  offset := h.handler vector
  kernelCs := 8
  type := 15
  storageSegment := bits m (idt + 8 * vector + 5) 4 1
  privilegeLevel := if user then 3 else 1
  present := 1

/-- A row of calls of `idt_set_descriptor`, each vector at most once. -/
theorem setDescriptors_run (h : Handlers) (idt : Nat) (ps : List (Nat × Bool))
    (hnodup : (ps.map Prod.fst).Nodup) (m : Bytes) :
    let m' := ps.foldl (fun m p => idtSetDescriptor idt p.1 (h.handler p.1) p.2 m) m
    (∀ p ∈ ps, gateAt m' (idt + 8 * p.1) = installed h idt m p.1 p.2) ∧
      ∀ x, (∀ p ∈ ps, x < idt + 8 * p.1 ∨ idt + 8 * p.1 + 8 ≤ x) → m' x = m x := by
  induction ps generalizing m with
  | nil => exact ⟨nofun, fun _ _ => rfl⟩
  | cons p ps ih =>
      intro m'
      rw [List.map_cons, List.nodup_cons] at hnodup
      obtain ⟨hgates, hkeeps⟩ := ih hnodup.2 (idtSetDescriptor idt p.1 (h.handler p.1) p.2 m)
      have hapart : ∀ q ∈ ps, q.1 ≠ p.1 := by
        intro q hq heq
        exact hnodup.1 (heq ▸ List.mem_map_of_mem hq)
      constructor
      · intro q hq
        rcases List.mem_cons.mp hq with rfl | hq
        · -- the later calls leave this gate alone
          refine (gateAt_congr fun x hlow hhigh => hkeeps x fun r hr => ?_).trans
            (gateAt_idtSetDescriptor m (h.handler_lt q.1))
          have hne := hapart r hr
          omega
        · have hne := hapart q hq
          refine (hgates q hq).trans ?_
          rw [installed, installed, bits_congr (idtSetDescriptor_of_outside (by omega))]
      · intro x hx
        refine (hkeeps x fun q hq => hx q (List.mem_cons_of_mem p hq)).trans ?_
        exact idtSetDescriptor_of_outside (hx p List.mem_cons_self)

/-- `idt_init` installs a gate for the vector. -/
def HasGate (vector : Nat) : Prop := vector < 48 ∨ vector = 50

instance (vector : Nat) : Decidable (HasGate vector) := inferInstanceAs (Decidable (_ ∨ _))

theorem hasGate_iff {vector : Nat} : HasGate vector ↔ ∃ user, (vector, user) ∈ idtVectors := by
  unfold HasGate idtVectors
  simp only [List.mem_append, List.mem_map, List.mem_range, List.mem_singleton, Prod.mk.injEq]
  constructor
  · rintro (hlow | hcall)
    · exact ⟨false, .inl ⟨vector, hlow, rfl, rfl⟩⟩
    · exact ⟨true, .inr ⟨hcall, rfl⟩⟩
  · rintro ⟨user, ⟨v, hlow, rfl, _⟩ | ⟨hcall, _⟩⟩
    · exact .inl hlow
    · exact .inr hcall

theorem idtVectors_nodup : (idtVectors.map Prod.fst).Nodup := by decide

/-- `idt_init` -/
theorem idtInit_run (h : Handlers) (idt : Nat) (m : Bytes) :
    (∀ p ∈ idtVectors, gateAt (idtInit h idt m) (idt + 8 * p.1) = installed h idt m p.1 p.2) ∧
      ∀ x, (∀ p ∈ idtVectors, x < idt + 8 * p.1 ∨ idt + 8 * p.1 + 8 ≤ x) →
        idtInit h idt m x = m x := by
  unfold idtInit
  exact setDescriptors_run h idt idtVectors idtVectors_nodup m

/-- `gdt_init` fills four segments in, and leaves the null descriptor and the last one alone. -/
theorem gdtInit_run (gdt : Nat) (m : Bytes) :
    segmentAt (gdtInit gdt m) (gdt + 8 * 1) = flat true 0 ∧
      segmentAt (gdtInit gdt m) (gdt + 8 * 2) = flat false 0 ∧
      segmentAt (gdtInit gdt m) (gdt + 8 * 3) = flat true 3 ∧
      segmentAt (gdtInit gdt m) (gdt + 8 * 4) = flat false 3 ∧
      ∀ x, x < gdt + 8 ∨ gdt + 40 ≤ x → gdtInit gdt m x = m x := by
  unfold gdtInit
  obtain ⟨m₁, hm₁⟩ : ∃ m₁, gdtFillEntry gdt 1 true 0 m = m₁ := ⟨_, rfl⟩
  obtain ⟨m₂, hm₂⟩ : ∃ m₂, gdtFillEntry gdt 2 false 0 m₁ = m₂ := ⟨_, rfl⟩
  obtain ⟨m₃, hm₃⟩ : ∃ m₃, gdtFillEntry gdt 3 true 3 m₂ = m₃ := ⟨_, rfl⟩
  simp only [hm₁, hm₂, hm₃]
  refine ⟨?_, ?_, ?_, segmentAt_gdtFillEntry m₃ (by decide), fun x hx => ?_⟩
  · have hfirst : segmentAt m₁ (gdt + 8 * 1) = flat true 0 :=
      hm₁ ▸ segmentAt_gdtFillEntry m (by decide)
    rw [← hfirst]
    refine segmentAt_congr fun x hx hx' => ?_
    rw [gdtFillEntry_of_outside (by omega), ← hm₃, gdtFillEntry_of_outside (by omega), ← hm₂,
      gdtFillEntry_of_outside (by omega)]
  · have hsecond : segmentAt m₂ (gdt + 8 * 2) = flat false 0 :=
      hm₂ ▸ segmentAt_gdtFillEntry m₁ (by decide)
    rw [← hsecond]
    refine segmentAt_congr fun x hx hx' => ?_
    rw [gdtFillEntry_of_outside (by omega), ← hm₃, gdtFillEntry_of_outside (by omega)]
  · have hthird : segmentAt m₃ (gdt + 8 * 3) = flat true 3 :=
      hm₃ ▸ segmentAt_gdtFillEntry m₂ (by decide)
    rw [← hthird]
    exact segmentAt_congr fun x hx hx' => gdtFillEntry_of_outside (by omega)
  · rw [gdtFillEntry_of_outside (by omega), ← hm₃, gdtFillEntry_of_outside (by omega), ← hm₂,
      gdtFillEntry_of_outside (by omega), ← hm₁, gdtFillEntry_of_outside (by omega)]

/-- Through a gate to code of ring 0 in the whole address space. -/
theorem deliver_installed {m₀ : Bytes} {vector : Nat} {user : Bool}
    (hvector : vector < 256) (hgate : gateAt m (idt + 8 * vector) = installed h idt m₀ vector user)
    (hsegment : segmentAt m (gdt + 8 * 1) = flat true 0) :
    deliver m (idtr idt) (gdtr gdt) vector =
      if bits m₀ (idt + 8 * vector + 5) 4 1 = 0 then some (h.handler vector) else none := by
  have hlt := h.handler_lt vector
  have hopens : (installed h idt m₀ vector user).Opens ↔
      bits m₀ (idt + 8 * vector + 5) 4 1 = 0 := by
    unfold Gate.Opens installed
    simp
  have henters : (flat true 0).Enters (installed h idt m₀ vector user).offset := by
    refine ⟨rfl, rfl, rfl, rfl, ?_⟩
    change h.handler vector ≤ 4096 * 1048575 + 4095
    omega
  have hfound : segment m (gdtr gdt) 8 = some (flat true 0) := by
    rw [← hsegment]
    rfl
  have hlimit : 8 * vector + 7 ≤ (idtr idt).limit := by
    change _ ≤ 8 * 256 - 1
    omega
  have hbase : gateAt m ((idtr idt).base + 8 * vector) = installed h idt m₀ vector user := hgate
  have hcs : (installed h idt m₀ vector user).kernelCs = 8 := rfl
  have htarget : u32 ((flat true 0).base + (installed h idt m₀ vector user).offset) =
      h.handler vector := by
    change u32 (0 + h.handler vector) = _
    rw [Nat.zero_add, u32_of_lt hlt]
  unfold deliver
  rw [if_pos hlimit, hbase]
  dsimp only
  by_cases hcan : bits m₀ (idt + 8 * vector + 5) 4 1 = 0
  · rw [if_pos (hopens.mpr hcan), if_pos hcan, hcs, hfound]
    dsimp only
    rw [if_pos henters, htarget]
  · rw [if_neg (mt hopens.mp hcan), if_neg hcan]

section Boot

variable (hapart : idt + 2048 ≤ gdt ∨ gdt + 48 ≤ idt)

include hapart

/-- A vector for which there is a gate. -/
theorem deliver_some (h : Handlers) {vector : Nat} (hgate : HasGate vector) :
    deliver (idtInit h idt (gdtInit gdt m)) (idtr idt) (gdtr gdt) vector =
      if bits m (idt + 8 * vector + 5) 4 1 = 0 then some (h.handler vector) else none := by
  obtain ⟨hcode, -, -, -, hbeside⟩ := gdtInit_run gdt m
  obtain ⟨hgates, hkeeps⟩ := idtInit_run h idt (gdtInit gdt m)
  have hbelow : ∀ p ∈ idtVectors, p.1 < 256 := by decide
  obtain ⟨user, hmem⟩ := hasGate_iff.mp hgate
  have hvector : vector < 256 := hbelow _ hmem
  have hsegment : segmentAt (idtInit h idt (gdtInit gdt m)) (gdt + 8 * 1) = flat true 0 := by
    rw [← hcode]
    refine segmentAt_congr fun x hx hx' => hkeeps x fun p hp => ?_
    have hp' := hbelow p hp
    omega
  have hstorage : bits (gdtInit gdt m) (idt + 8 * vector + 5) 4 1 =
      bits m (idt + 8 * vector + 5) 4 1 := bits_congr (hbeside _ (by omega))
  have hinstalled : gateAt (idtInit h idt (gdtInit gdt m)) (idt + 8 * vector) =
      installed h idt (gdtInit gdt m) vector user := hgates (vector, user) hmem
  rw [← hstorage, deliver_installed hvector hinstalled hsegment]

/-- A vector for which there is none. -/
theorem deliver_none (h : Handlers)
    (hclear : ∀ v < 256, ¬ HasGate v → bits m (idt + 8 * v + 5) 7 1 = 0)
    {vector : Nat} (hgate : ¬ HasGate vector) :
    deliver (idtInit h idt (gdtInit gdt m)) (idtr idt) (gdtr gdt) vector = none := by
  obtain ⟨-, -, -, -, hbeside⟩ := gdtInit_run gdt m
  obtain ⟨-, hkeeps⟩ := idtInit_run h idt (gdtInit gdt m)
  by_cases hvector : vector < 256
  · -- the gate is not present
    have hkept : gateAt (idtInit h idt (gdtInit gdt m)) (idt + 8 * vector) =
        gateAt m (idt + 8 * vector) := by
      refine gateAt_congr fun x hx hx' => (hkeeps x fun p hp => ?_).trans (hbeside x (by omega))
      have hne : p.1 ≠ vector := by
        rintro rfl
        exact hgate (hasGate_iff.mpr ⟨p.2, hp⟩)
      omega
    have hshut : ¬ (gateAt m (idt + 8 * vector)).Opens := by
      rintro ⟨hpresent, -⟩
      exact absurd ((hclear vector hvector hgate).symm.trans hpresent) (by decide)
    unfold deliver
    dsimp only
    rw [show (idtr idt).base = idt from rfl, hkept, if_neg hshut]
    exact ite_self none
  · exact if_neg (show ¬ 8 * vector + 7 ≤ 8 * 256 - 1 by omega)

/-- Behind `gdt_init` and `idt_init` an exception, a hardware interrupt or the system call that is
raised in ring 0 goes to its own handler, if and only if the bit of its gate that
`idt_set_descriptor` does not write has been clear. No other vector is taken, where the table has
been clear. -/
theorem deliver_boot (h : Handlers)
    (hclear : ∀ v < 256, ¬ HasGate v → bits m (idt + 8 * v + 5) 7 1 = 0) (vector : Nat) :
    deliver (idtInit h idt (gdtInit gdt m)) (idtr idt) (gdtr gdt) vector =
      if HasGate vector ∧ bits m (idt + 8 * vector + 5) 4 1 = 0 then some (h.handler vector)
      else none := by
  by_cases hgate : HasGate vector
  · rw [deliver_some hapart h hgate]
    by_cases hstorage : bits m (idt + 8 * vector + 5) 4 1 = 0
    · rw [if_pos hstorage, if_pos ⟨hgate, hstorage⟩]
    · rw [if_neg hstorage, if_neg fun hboth => hstorage hboth.2]
  · rw [deliver_none hapart h hclear hgate, if_neg fun hboth => hgate hboth.1]

end Boot

end Tables

/-- The stubs one behind the other. -/
def someHandlers : Handlers where
  idtExc v := 16 * v % 4294967296
  idtInt v := 16 * v % 4294967296
  idtExc_lt _ := Nat.mod_lt _ (by decide)
  idtInt_lt _ := Nat.mod_lt _ (by decide)

/-- Tables in memory that is clear: the timer. -/
theorem deliver_boot_timer :
    deliver (idtInit someHandlers 4096 (gdtInit 8192 fun _ => 0)) (idtr 4096) (gdtr 8192) 32 =
      if HasGate 32 ∧ bits (fun _ => 0) (4096 + 8 * 32 + 5) 4 1 = 0 then
        some (someHandlers.handler 32)
      else none := by
  have hclear : ∀ v < 256, ¬ HasGate v → bits (fun _ => 0) (4096 + 8 * v + 5) 7 1 = 0 := by
    intro v _ _
    change field 7 1 (0 : UInt8).toNat = 0
    decide
  exact deliver_boot (.inl (by decide)) someHandlers hclear 32

end NickOS3.Interrupt
