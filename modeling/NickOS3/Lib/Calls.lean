import NickOS3.Lib.Sequence

/-!
# Runs of a list

A run creates a list and goes on with calls on it, beside the same calls on a sequence.
Between the calls other code may change all memory but the blocks of the list; in
particular it may change what lies at the null address.
-/

namespace NickOS3.Lib

open Foundation

/-- A call, with the block that `malloc` returns during it. -/
inductive ListCall
  | listInit
  | listInitWith (data : Nat) (block : Block)
  | append (data : Nat) (block : Block)
  | push (data : Nat) (block : Block)
  | pop
  | remove (data : Nat)
  | isEmpty
  | listGet (idx : Nat)

inductive Result
  | void
  | data (v : Nat)
  | flag (b : Bool)
  deriving DecidableEq

namespace ListCall

def run : ListCall → ListM Result
  | .listInit => do Lib.listInit; return .void
  | .listInitWith data block => do Lib.listInitWith data block; return .void
  | .append data block => do Lib.append data block; return .void
  | .push data block => do Lib.push data block; return .void
  | .pop => do return .data (← Lib.pop)
  | .remove data => do return .flag (← Lib.remove data)
  | .isEmpty => do return .flag (← Lib.isEmpty)
  | .listGet idx => do return .data (← Lib.listGet idx)

/-- The call on a sequence; a list is created once, and `list_get` has to be within it. -/
def spec : ListCall → Option (List Nat) → Option (List Nat × Result)
  | .listInit, none => some ([], .void)
  | .listInitWith data _, none => some ([data], .void)
  | .append data _, some xs => some (xs ++ [data], .void)
  | .push data _, some xs => some (data :: xs, .void)
  | .pop, some xs => some (xs.tail, .data (xs.head?.getD 0))
  | .remove data, some xs => some (xs.erase data, .flag (decide (data ∈ xs)))
  | .isEmpty, some xs => some (xs, .flag (decide (xs = [])))
  | .listGet idx, some xs => if idx < xs.length then some (xs, .data (xs[idx]?.getD 0)) else none
  | _, _ => none

def block : ListCall → Option Block
  | .listInitWith _ block | .append _ block | .push _ block => some block
  | _ => none

/-- The blocks of a call are fresh. -/
def Proper (s : ListState) (a : ListCall) : Prop :=
  ∀ b, a.block = some b → b.Fresh s

theorem proper_iff {s : ListState} {a : ListCall} : a.Proper s ↔ ∀ b ∈ a.block.toList,
    b.address ≠ 0 ∧ b.address < 4294967296 ∧ b.address ∉ s.blocks := by
  constructor
  · intro h b hb
    have hfresh := h b (by simpa using hb)
    exact ⟨hfresh.notNull, hfresh.fits, hfresh.notLive⟩
  · intro h b hb
    obtain ⟨h0, hfits, hlive⟩ := h b (by simp [hb])
    exact ⟨h0, hfits, hlive⟩

/-- What the code relies on without establishing it: a block that becomes the last element
holds null where the forward link is left unset, `push` finds an element to link back from,
and what lies at the null address is not taken for an element by `remove`. -/
def Relies (s : ListState) : ListCall → Prop
  | .listInitWith _ block => block.content.next = 0
  | .append _ block => s.list.size ≠ 0 → block.content.next = 0
  | .push _ _ => s.list.size ≠ 0
  | .remove data => s.list.size = 0 → (s.elems 0).next = 0 ∧ (s.elems 0).data ≠ data
  | _ => True

/-- A block that becomes the first element holds null where the back link is left unset. -/
def LinksBack : ListCall → Prop
  | .listInitWith _ block | .push _ block => block.content.prev = 0
  | _ => True

/-- The head is null when the call goes through it, or becomes null during the call. -/
def ThroughNull (s : ListState) : ListCall → Prop
  | .pop => s.list.size = 1
  | .remove data =>
      s.list.size = 0 ∨ s.list.size = 1 ∧ (s.elems s.list.head).data = data
  | _ => False

end ListCall

/-- The list beside its sequence, and the results of both so far. -/
structure ListRun where
  memory : ListState
  sequence : Option (List Nat)
  results : List (Result × Result)

/-- The accesses that a call makes are recorded anew. -/
def ListRun.memoryAt (r : ListRun) : ListState := { r.memory with touched := [] }

/-- The effect of a call; `none` when it does not return or is not defined on sequences. -/
def ListRun.call (r : ListRun) (a : ListCall) : Option ListRun :=
  (a.spec r.sequence).bind fun (xs, expected) =>
    (a.run r.memoryAt).map fun (result, memory) =>
      { memory := memory, sequence := some xs, results := (result, expected) :: r.results }

inductive ListAction
  | call (a : ListCall)
  | elsewhere (content : Nat → ListElem)

/-- Other code writes outside the blocks of the list. -/
def ListState.elsewhere (s : ListState) (content : Nat → ListElem) : ListState :=
  { s with elems := fun x => if x ∈ s.blocks then s.elems x else content x }

/-- Runs of one list, from arbitrary memory without the list. -/
def listMachine : Machine ListRun ListAction where
  start r := r.memory.blocks = [] ∧ r.sequence = none ∧ r.results = []
  step r a r' :=
    match a with
    | .call a => a.Proper r.memory ∧ r.call a = some r'
    | .elsewhere content => r' = { r with memory := r.memory.elsewhere content }

/-- Memory without any content, and no list yet. -/
def blankMemory : ListRun := ⟨⟨fun _ => ⟨0, 0, 0⟩, ⟨0, 0, 0⟩, [], []⟩, none, []⟩

theorem blankMemory_start : listMachine.start blankMemory := ⟨rfl, rfl, rfl⟩

/-! ## One call -/

section Calls

variable {s : ListState} {p : Nat} {nodes xs xs' : List Nat} {a : ListCall} {result : Result}

/-- What a call may dereference. -/
def ListCall.Allowed (s : ListState) (nodes : List Nat) (a : ListCall) (x : Nat) : Prop :=
  x ∈ nodes ∨ (∃ b, a.block = some b ∧ x = b.address) ∨ x = 0 ∧ a.ThroughNull s

theorem TouchesOnly.mono {s s' : ListState} {P Q : Nat → Prop} (h : TouchesOnly s s' P)
    (hle : ∀ x, P x → Q x) : TouchesOnly s s' Q :=
  fun x hx => (h x hx).imp id (hle x)

/-- A call on a list that is a sequence. -/
theorem Represents.call (h : Represents s p nodes xs) (hproper : a.Proper s)
    (hrelies : a.Relies s) (hspec : a.spec (some xs) = some (xs', result)) :
    ∃ s' p' nodes', a.run s = some (result, s') ∧ Represents s' p' nodes' xs' ∧
      (p = 0 → a.LinksBack → p' = 0) ∧ TouchesOnly s s' (a.Allowed s nodes) := by
  have hlen : nodes.length = xs.length := by rw [← h.data, List.length_map]
  have hsize : s.list.size ≠ 0 → nodes ≠ [] := by
    rintro h0 rfl
    exact h0 h.size
  cases a with
  | listInit => simp [ListCall.spec] at hspec
  | listInitWith data b => simp [ListCall.spec] at hspec
  | append data b =>
      obtain ⟨rfl, rfl⟩ := Prod.mk.inj (Option.some.inj hspec)
      have hb := hproper b rfl
      by_cases hne : nodes = []
      · subst hne
        obtain rfl : xs = [] := List.length_eq_zero_iff.mp hlen.symm
        obtain ⟨s', hrun, hrep, htouch⟩ := h.append_empty (d := data) hb
        refine ⟨s', 0, _, ?_, hrep, fun _ _ => rfl, htouch.mono ?_⟩
        · simp [ListCall.run, hrun]
        · exact fun x hx => .inr (.inl ⟨b, rfl, hx⟩)
      · obtain ⟨s', hrun, hrep, htouch⟩ :=
          h.append (d := data) hb hne (hrelies (h.size_ne_zero hne))
        refine ⟨s', p, _, ?_, hrep, fun hp _ => hp, htouch.mono ?_⟩
        · simp [ListCall.run, hrun]
        · exact fun x hx => hx.imp id fun hx => .inl ⟨b, rfl, hx⟩
  | push data b =>
      obtain ⟨rfl, rfl⟩ := Prod.mk.inj (Option.some.inj hspec)
      obtain ⟨s', hrun, hrep, htouch⟩ := h.push (d := data) (hproper b rfl) (hsize hrelies)
      refine ⟨s', _, _, ?_, hrep, fun _ hb => hb, htouch.mono ?_⟩
      · simp [ListCall.run, hrun]
      · exact fun x hx => hx.imp id fun hx => .inl ⟨b, rfl, hx⟩
  | pop =>
      obtain ⟨rfl, rfl⟩ := Prod.mk.inj (Option.some.inj hspec)
      cases nodes with
      | nil =>
          obtain rfl : xs = [] := List.length_eq_zero_iff.mp hlen.symm
          refine ⟨s, p, [], ?_, h, fun hp _ => hp, fun x hx => .inl hx⟩
          simp [ListCall.run, pop_run_empty h.size]
      | cons x l =>
          obtain ⟨s', hrun, hrep, htouch⟩ := h.pop
          refine ⟨s', 0, l, ?_, hrep, fun _ _ => rfl, htouch.mono ?_⟩
          · simp [ListCall.run, hrun]
          · exact fun z hz => hz.imp id fun hz => .inr ⟨hz.1, by
              rw [ListCall.ThroughNull, h.size, hz.2]
              rfl⟩
  | remove data =>
      obtain ⟨rfl, rfl⟩ := Prod.mk.inj (Option.some.inj hspec)
      by_cases hne : nodes = []
      · subst hne
        obtain rfl : xs = [] := List.length_eq_zero_iff.mp hlen.symm
        obtain ⟨hnext, hdata⟩ := hrelies h.size
        obtain ⟨s', hrun, hrep, htouch⟩ := h.remove_empty hnext hdata
        refine ⟨s', p, [], ?_, hrep, fun hp _ => hp, htouch.mono ?_⟩
        · simp [ListCall.run, hrun]
        · exact fun x hx => .inr (.inr ⟨hx, .inl h.size⟩)
      · obtain ⟨s', hrun, hrep, htouch⟩ := Represents.remove (d := data) h hne
        refine ⟨s', p, _, ?_, hrep, fun hp _ => hp, htouch.mono ?_⟩
        · simp [ListCall.run, hrun]
        · rintro x (hx | ⟨hx, rfl⟩)
          · exact .inl hx
          · obtain ⟨y, l, rfl⟩ := List.exists_cons_of_ne_nil hne
            have hhead : (s.elems s.list.head).data = data := by
              rw [h.next.1]
              exact (List.cons.inj h.data).1
            exact .inr (.inr ⟨hx, .inr ⟨h.size.trans hlen, hhead⟩⟩)
  | isEmpty =>
      obtain ⟨rfl, rfl⟩ := Prod.mk.inj (Option.some.inj hspec)
      refine ⟨s, p, nodes, ?_, h, fun hp _ => hp, fun x hx => .inl hx⟩
      simp [ListCall.run, h.isEmpty_eq]
  | listGet idx =>
      by_cases hidx : idx < xs.length
      · rw [ListCall.spec, if_pos hidx] at hspec
        obtain ⟨rfl, rfl⟩ := Prod.mk.inj (Option.some.inj hspec)
        obtain ⟨s', hrun, hrep, htouch⟩ := h.listGet hidx
        refine ⟨s', p, nodes, ?_, hrep, fun hp _ => hp, htouch.mono fun x hx => .inl hx⟩
        simp [ListCall.run, hrun]
      · rw [ListCall.spec, if_neg hidx] at hspec
        exact absurd hspec (by simp)

/-- The creation of a list. -/
theorem ListState.BlocksDistinct.call (h : s.BlocksDistinct) (hproper : a.Proper s)
    (hrelies : a.Relies s) (hspec : a.spec none = some (xs', result)) :
    ∃ s' p' nodes', a.run s = some (result, s') ∧ Represents s' p' nodes' xs' ∧
      (a.LinksBack → p' = 0) ∧ TouchesOnly s s' (a.Allowed s []) := by
  cases a with
  | listInit =>
      obtain ⟨rfl, rfl⟩ := Prod.mk.inj (Option.some.inj hspec)
      obtain ⟨s', hrun, hrep, htouch⟩ := h.listInit
      refine ⟨s', 0, [], ?_, hrep, fun _ => rfl, fun x hx => .inl (htouch ▸ hx)⟩
      simp [ListCall.run, hrun]
  | listInitWith data b =>
      obtain ⟨rfl, rfl⟩ := Prod.mk.inj (Option.some.inj hspec)
      obtain ⟨s', hrun, hrep, htouch⟩ := h.listInitWith (d := data) (hproper b rfl) hrelies
      refine ⟨s', _, _, ?_, hrep, fun hb => hb, htouch.mono ?_⟩
      · simp [ListCall.run, hrun]
      · exact fun x hx => .inr (.inl ⟨b, rfl, hx⟩)
  | append | push | pop | remove | isEmpty | listGet => simp [ListCall.spec] at hspec

end Calls

/-! ## Runs -/

/-- The results agree so far, and the memory represents the sequence. -/
structure ListRun.Sound (r : ListRun) (p : Nat) (nodes : List Nat) : Prop where
  results : ∀ c ∈ r.results, c.1 = c.2
  fresh : r.sequence = none → nodes = [] ∧ r.memory.BlocksDistinct
  represents : ∀ xs, r.sequence = some xs → Represents r.memory p nodes xs

section Runs

variable {r r' : ListRun} {p : Nat} {nodes : List Nat} {a : ListCall}

/-- A call returns what the sequence does and represents the new sequence. -/
theorem ListRun.Sound.call (h : r.Sound p nodes) (hproper : a.Proper r.memory)
    (hrelies : a.Relies r.memory) (hspec : (a.spec r.sequence).isSome) :
    ∃ result memory r' p' nodes', a.run r.memoryAt = some (result, memory) ∧
      r.call a = some r' ∧ r'.Sound p' nodes' ∧ (p = 0 → a.LinksBack → p' = 0) ∧
      ∀ x ∈ memory.touched, a.Allowed r.memory nodes x := by
  obtain ⟨⟨xs', expected⟩, hspec⟩ := Option.isSome_iff_exists.mp hspec
  have hfresh : a.Proper r.memoryAt := fun b hb =>
    ⟨(hproper b hb).notNull, (hproper b hb).fits, (hproper b hb).notLive⟩
  have hcall : ∃ memory p' nodes', a.run r.memoryAt = some (expected, memory) ∧
      Represents memory p' nodes' xs' ∧ (p = 0 → a.LinksBack → p' = 0) ∧
      TouchesOnly r.memoryAt memory (a.Allowed r.memory nodes) := by
    cases hseq : r.sequence with
    | none =>
        rw [hseq] at hspec
        obtain ⟨rfl, hblocks⟩ := h.fresh hseq
        obtain ⟨memory, p', nodes', hrun, hrep, hback, htouch⟩ :=
          ListState.BlocksDistinct.call (s := r.memoryAt) hblocks hfresh hrelies hspec
        exact ⟨memory, p', nodes', hrun, hrep, fun _ => hback, htouch⟩
    | some xs =>
        rw [hseq] at hspec
        exact ((h.represents xs hseq).touched []).call hfresh hrelies hspec
  obtain ⟨memory, p', nodes', hrun, hrep, hback, htouch⟩ := hcall
  refine ⟨expected, memory, ⟨memory, some xs', (expected, expected) :: r.results⟩, p', nodes',
    hrun, ?_, ?_, hback, fun x hx => (htouch x hx).resolve_left (List.not_mem_nil)⟩
  · rw [ListRun.call, hspec, Option.bind_some, hrun]
    rfl
  · constructor
    · intro c hc
      rcases List.mem_cons.mp hc with rfl | hc
      · rfl
      · exact h.results c hc
    · simp
    · intro xs hxs
      rwa [← Option.some.inj hxs]

/-- What other code writes is not in the list. -/
theorem Represents.elsewhere {s : ListState} {xs : List Nat} (h : Represents s p nodes xs)
    (content : Nat → ListElem) : Represents (s.elsewhere content) p nodes xs := by
  have hsame : ∀ x ∈ nodes, (s.elsewhere content).elems x = s.elems x :=
    fun x hx => if_pos (h.live x hx)
  constructor
  · exact h.next.congr fun x hx => by rw [hsame x hx]
  · exact h.prev.congr fun x hx => by rw [hsame x hx]
  · rw [← h.data]
    exact List.map_congr_left fun x hx => by rw [hsame x hx]
  · exact h.size
  · exact h.tail
  · exact h.nodup
  · exact h.live
  · exact h.blocks

theorem ListRun.Sound.elsewhere (h : r.Sound p nodes) (content : Nat → ListElem) :
    ListRun.Sound { r with memory := r.memory.elsewhere content } p nodes :=
  ⟨h.results, h.fresh, fun xs hxs => (h.represents xs hxs).elsewhere content⟩

/-- A guard on the calls of a run. -/
def Guarded (guard : ListState → ListCall → Prop) (r : ListRun) : ListAction → Prop
  | .call a => guard r.memory a
  | .elsewhere _ => True

/-- Along a run whose calls find what they rely on, the memory represents the sequence. -/
theorem sound_of_reach {guard : ListState → ListCall → Prop}
    (hguard : ∀ s a, guard s a → a.Relies s) (run : listMachine.Reach (Guarded guard) r) :
    ∃ p nodes, r.Sound p nodes ∧ ((∀ s a, guard s a → a.LinksBack) → p = 0) := by
  apply run.invariant
  · intro s ⟨hblocks, hseq, hresults⟩
    refine ⟨0, [], ⟨by simp [hresults], fun _ => ⟨rfl, ?_⟩, by simp [hseq]⟩, fun _ => rfl⟩
    rw [ListState.BlocksDistinct, hblocks]
    simp
  · rintro s action s' ⟨p, nodes, h, hp⟩ ok hstep
    cases action with
    | call a =>
        obtain ⟨hproper, hcall⟩ := hstep
        have hspec : (a.spec s.sequence).isSome := by
          obtain ⟨c, hc, -⟩ := Option.bind_eq_some_iff.mp hcall
          rw [hc]
          rfl
        obtain ⟨-, -, r', p', nodes', -, hcall', h', hback, -⟩ :=
          h.call hproper (hguard _ _ ok) hspec
        obtain rfl := Option.some.inj (hcall.symm.trans hcall')
        exact ⟨p', nodes', h', fun hall => hback (hp hall) (hall _ _ ok)⟩
    | elsewhere content =>
        obtain rfl := hstep
        exact ⟨p, nodes, h.elsewhere content, hp⟩

end Runs

end NickOS3.Lib
