import NickOS3.Lib.KeyValue

/-!
# The store as a map

A run creates a store and goes on with calls on it, beside the same calls on a map from keys
to values, kept as the list of its entries in the order in which they were added. The
results agree as long as `kv_get` is asked for a key that is its own position, and `remove`
on an empty store finds no key at the null address.
-/

namespace NickOS3.Lib

open Foundation

/-- A call, with the block that `malloc` returns during it. -/
inductive KvCall
  | kvInit
  | kvInitWith (key value : Nat) (block : Block)
  | add (key value : Nat) (block : Block)
  | remove (key : Nat)
  | kvGet (key : Nat)

namespace KvCall

def run : KvCall → KvM Result
  | .kvInit => do Kv.kvInit; return .void
  | .kvInitWith key value block => do Kv.kvInitWith key value block; return .void
  | .add key value block => do Kv.add key value block; return .void
  | .remove key => do return .flag (← Kv.remove key)
  | .kvGet key => do return .data (← Kv.kvGet key)

/-- The call on a map; a key is added only while it is absent, and an absent key has no
value. -/
def spec : KvCall → Option (List (Nat × Nat)) → Option (List (Nat × Nat) × Result)
  | .kvInit, none => some ([], .void)
  | .kvInitWith key value _, none => some ([(key, value)], .void)
  | .add key value _, some m =>
      if key ∈ m.map Prod.fst then none else some (m ++ [(key, value)], .void)
  | .remove key, some m =>
      some (m.eraseP fun e => e.1 = key, .flag (decide (key ∈ m.map Prod.fst)))
  | .kvGet key, some m => some (m, .data ((m.lookup key).getD 0))
  | _, _ => none

def block : KvCall → Option Block
  | .kvInitWith _ _ block | .add _ _ block => some block
  | _ => none

/-- The blocks of a call are fresh. -/
def Proper (s : KvState) (a : KvCall) : Prop :=
  ∀ b, a.block = some b → b.Fresh s.keys

theorem proper_iff {s : KvState} {a : KvCall} : a.Proper s ↔ ∀ b ∈ a.block.toList,
    b.address ≠ 0 ∧ b.address < 4294967296 ∧ b.address ∉ s.keys.blocks := by
  constructor
  · intro h b hb
    have hfresh := h b (by simpa using hb)
    exact ⟨hfresh.notNull, hfresh.fits, hfresh.notLive⟩
  · intro h b hb
    obtain ⟨h0, hfits, hlive⟩ := h b (by simp [hb])
    exact ⟨h0, hfits, hlive⟩

end KvCall

/-- The store beside its map, and the results of both so far. -/
structure KvRun where
  memory : KvState
  entries : Option (List (Nat × Nat))
  results : List (Result × Result)

/-- The effect of a call; `none` when it does not return or is not defined on maps. -/
def KvRun.call (r : KvRun) (a : KvCall) : Option KvRun :=
  (a.spec r.entries).bind fun (m, expected) =>
    (a.run r.memory).map fun (result, memory) =>
      { memory := memory, entries := some m, results := (result, expected) :: r.results }

inductive KvAction
  | call (a : KvCall)
  | elsewhere (content : Nat → ListElem) (values : Nat → Nat)

/-- Other code writes outside the blocks of the store. -/
def KvState.elsewhere (s : KvState) (content : Nat → ListElem) (values : Nat → Nat) : KvState where
  keys := s.keys.elsewhere content
  values x := if x ∈ s.keys.blocks then s.values x else values x

/-- Runs of one store, from arbitrary memory without the store. -/
def kvMachine : Machine KvRun KvAction where
  start r := r.memory.keys.blocks = [] ∧ r.entries = none ∧ r.results = []
  step r a r' :=
    match a with
    | .call a => a.Proper r.memory ∧ r.call a = some r'
    | .elsewhere content values => r' = { r with memory := r.memory.elsewhere content values }

/-- The results agree with those of the map, and the size is the number of keys. -/
def KvRun.IsMap (r : KvRun) : Prop :=
  (∀ c ∈ r.results, c.1 = c.2) ∧ ∀ m, r.entries = some m → r.memory.keys.list.size = m.length

/-- A block that becomes the last element holds null where the forward link is left unset,
what lies at the null address is not taken for an element by `remove`, and a key that is
asked for is the one at the position that it names. -/
def KvRun.Positional (r : KvRun) : KvCall → Prop
  | .kvInitWith _ _ block => block.content.next = 0
  | .add _ _ block => r.memory.keys.list.size ≠ 0 → block.content.next = 0
  | .remove key => r.memory.keys.list.size = 0 →
      (r.memory.keys.elems 0).next = 0 ∧ (r.memory.keys.elems 0).data ≠ key
  | .kvGet key => ∀ m, r.entries = some m → (m[key]?).map Prod.fst = some key
  | _ => True

/-- A guard on the calls of a run. -/
def KvRun.Guarded (guard : KvRun → KvCall → Prop) (r : KvRun) : KvAction → Prop
  | .call a => guard r a
  | .elsewhere _ _ => True

/-- The results agree so far, and the memory holds the entries. -/
structure KvRun.Sound (r : KvRun) : Prop where
  results : ∀ c ∈ r.results, c.1 = c.2
  fresh : r.entries = none → r.memory.keys.BlocksDistinct
  holds : ∀ m, r.entries = some m → ∃ p nodes, r.memory.Holds p nodes m

section Runs

variable {r r' : KvRun} {a : KvCall}

theorem KvRun.Sound.isMap (h : r.Sound) : r.IsMap := by
  refine ⟨h.results, ?_⟩
  intro m hm
  obtain ⟨p, nodes, hholds⟩ := h.holds m hm
  rw [hholds.keys.size, ← hholds.entries, List.length_map]

/-- A call on a store that holds a map. -/
theorem KvState.Holds.call {s : KvState} {p : Nat} {nodes : List Nat} {m m' : List (Nat × Nat)}
    {result : Result} (h : s.Holds p nodes m) (hproper : a.Proper s)
    (hpositional : KvRun.Positional ⟨s, some m, []⟩ a)
    (hspec : a.spec (some m) = some (m', result)) :
    ∃ s' p' nodes', a.run s = some (result, s') ∧ s'.Holds p' nodes' m' := by
  cases a with
  | kvInit => simp [KvCall.spec] at hspec
  | kvInitWith key value b => simp [KvCall.spec] at hspec
  | add key value b =>
      rw [KvCall.spec] at hspec
      split at hspec
      · cases hspec
      · rename_i hkey
        cases hspec
        obtain ⟨s', p', hrun, hholds⟩ :
            ∃ s' p', Kv.add key value b s = some ((), s') ∧ _ :=
          h.add (hproper b rfl) hkey hpositional
        exact ⟨s', p', _, by simp [KvCall.run, hrun], hholds⟩
  | remove key =>
      obtain ⟨rfl, rfl⟩ := Prod.mk.inj (Option.some.inj hspec)
      obtain ⟨s', nodes', hrun, hholds⟩ := h.remove hpositional
      exact ⟨s', p, nodes', by simp [KvCall.run, hrun], hholds⟩
  | kvGet key =>
      obtain ⟨rfl, rfl⟩ := Prod.mk.inj (Option.some.inj hspec)
      obtain ⟨⟨k, v⟩, hget, hk⟩ := Option.map_eq_some_iff.mp (hpositional m rfl)
      obtain rfl : k = key := hk
      obtain ⟨s', hrun, hholds⟩ := h.kvGet hget
      have hlookup := lookup_of_getElem? h.distinct hget
      exact ⟨s', p, nodes, by simp [KvCall.run, hrun, hlookup], hholds⟩

/-- The creation of a store. -/
theorem KvRun.Sound.create {s : KvState} {m' : List (Nat × Nat)} {result : Result}
    (h : s.keys.BlocksDistinct) (hproper : a.Proper s)
    (hpositional : KvRun.Positional ⟨s, none, []⟩ a) (hspec : a.spec none = some (m', result)) :
    ∃ s' p' nodes', a.run s = some (result, s') ∧ s'.Holds p' nodes' m' := by
  cases a with
  | kvInit =>
      obtain ⟨rfl, rfl⟩ := Prod.mk.inj (Option.some.inj hspec)
      obtain ⟨l, hrun, hrep, -⟩ := h.listInit
      exact ⟨{ s with keys := l }, 0, [], by simp [KvCall.run, Kv.kvInit, hrun], hrep, rfl,
        List.nodup_nil⟩
  | kvInitWith key value b =>
      obtain ⟨rfl, rfl⟩ := Prod.mk.inj (Option.some.inj hspec)
      obtain ⟨l, hrun, hrep, -⟩ := h.listInitWith (d := key) (hproper b rfl) hpositional
      refine ⟨⟨l, Function.update s.values b.address value⟩, _, _, ?_, hrep, ?_,
        List.nodup_singleton _⟩
      · simp only [KvCall.run, kv_bind_run, kvInitWith_run, hrun]
        rfl
      · simp
  | add | remove | kvGet => simp [KvCall.spec] at hspec

/-- A call returns what the map does, and the store holds the new map. -/
theorem KvRun.Sound.call (h : r.Sound) (hproper : a.Proper r.memory)
    (hpositional : r.Positional a) (hspec : (a.spec r.entries).isSome) :
    ∃ r', r.call a = some r' ∧ r'.Sound := by
  obtain ⟨⟨m', expected⟩, hspec⟩ := Option.isSome_iff_exists.mp hspec
  have hcall : ∃ s' p' nodes', a.run r.memory = some (expected, s') ∧
      s'.Holds p' nodes' m' := by
    cases hentries : r.entries with
    | none =>
        rw [hentries] at hspec
        refine KvRun.Sound.create (h.fresh hentries) hproper ?_ hspec
        cases a with
        | kvGet key => exact fun m hm => nomatch hm
        | kvInit | kvInitWith | add | remove => exact hpositional
    | some m =>
        rw [hentries] at hspec
        obtain ⟨p, nodes, hholds⟩ := h.holds m hentries
        refine hholds.call hproper ?_ hspec
        cases a with
        | kvGet key => exact fun m' hm => hpositional m' (hentries.trans hm)
        | kvInit | kvInitWith | add | remove => exact hpositional
  obtain ⟨s', p', nodes', hrun, hholds⟩ := hcall
  refine ⟨⟨s', some m', (expected, expected) :: r.results⟩, ?_, ?_, fun hnone => ?_, ?_⟩
  · rw [KvRun.call, hspec, Option.bind_some, hrun]
    rfl
  · intro c hc
    rcases List.mem_cons.mp hc with rfl | hc
    · rfl
    · exact h.results c hc
  · cases hnone
  · intro m hm
    cases hm
    exact ⟨p', nodes', hholds⟩

/-- What other code writes is not in the store. -/
theorem KvRun.Sound.elsewhere (h : r.Sound) (content : Nat → ListElem) (values : Nat → Nat) :
    KvRun.Sound { r with memory := r.memory.elsewhere content values } := by
  refine ⟨h.results, h.fresh, ?_⟩
  intro m hm
  obtain ⟨p, nodes, hholds⟩ := h.holds m hm
  refine ⟨p, nodes, hholds.keys.elsewhere content, ?_, hholds.distinct⟩
  rw [← hholds.values]
  exact List.map_congr_left fun x hx => if_pos (hholds.keys.live x hx)

theorem sound_of_reach_positional
    (run : kvMachine.Reach (KvRun.Guarded KvRun.Positional) r) : r.Sound := by
  induction run with
  | start h =>
      obtain ⟨hblocks, hentries, hresults⟩ := h
      refine ⟨by simp [hresults], fun _ => ?_, by simp [hentries]⟩
      rw [ListState.BlocksDistinct, hblocks]
      simp
  | @step r r' action _ ok hstep ih =>
      cases action with
      | call a =>
          obtain ⟨hproper, hcall⟩ := hstep
          have hspec : (a.spec r.entries).isSome := by
            obtain ⟨c, hc, -⟩ := Option.bind_eq_some_iff.mp hcall
            rw [hc]
            rfl
          obtain ⟨r'', hcall', h'⟩ := ih.call hproper ok hspec
          obtain rfl := Option.some.inj (hcall.symm.trans hcall')
          exact h'
      | elsewhere content values =>
          cases hstep
          exact ih.elsewhere content values

end Runs

/-- In a run of positional calls the store is a map, and every further positional call that
the map allows returns. -/
theorem kv_is_map_of_positional {r : KvRun}
    (run : kvMachine.Reach (KvRun.Guarded KvRun.Positional) r) :
    r.IsMap ∧ ∀ a : KvCall, r.Positional a → a.Proper r.memory → (a.spec r.entries).isSome →
      ∃ r', r.call a = some r' := by
  have h := sound_of_reach_positional run
  refine ⟨h.isMap, ?_⟩
  intro a ha hproper hspec
  obtain ⟨r', hcall, -⟩ := h.call hproper ha hspec
  exact ⟨r', hcall⟩

/-- Memory without any content, and no store yet. -/
def blankStore : KvRun := ⟨⟨⟨fun _ => ⟨0, 0, 0⟩, ⟨0, 0, 0⟩, [], []⟩, fun _ => 0⟩, none, []⟩

theorem blankStore_start : kvMachine.start blankStore := ⟨rfl, rfl, rfl⟩

/-- Keys added in the order 0, 1, and the first of them removed again. -/
theorem kv_is_map_of_positional_run : ∃ r : KvRun, r.entries = some [(1, 20)] ∧ r.IsMap ∧
    ∃ r', r.call (.remove 1) = some r' := by
  let s₁ := (blankStore.call .kvInit).get (by decide)
  let s₂ := (s₁.call (.add 0 10 ⟨100, ⟨0, 0, 0⟩⟩)).get (by decide)
  let s₃ := (s₂.call (.add 1 20 ⟨116, ⟨0, 0, 0⟩⟩)).get (by decide)
  let s₄ := (s₃.call (.kvGet 1)).get (by decide)
  let s₅ := (s₄.call (.remove 0)).get (by decide)
  have run₁ : kvMachine.Reach (KvRun.Guarded KvRun.Positional) s₁ :=
    .step (a := .call .kvInit) (.start blankStore_start) trivial
      ⟨KvCall.proper_iff.mpr (by decide), (Option.some_get _).symm⟩
  have run₂ : kvMachine.Reach (KvRun.Guarded KvRun.Positional) s₂ :=
    .step (a := .call (.add 0 10 ⟨100, ⟨0, 0, 0⟩⟩)) run₁ (fun _ => rfl)
      ⟨KvCall.proper_iff.mpr (by decide), (Option.some_get _).symm⟩
  have run₃ : kvMachine.Reach (KvRun.Guarded KvRun.Positional) s₃ :=
    .step (a := .call (.add 1 20 ⟨116, ⟨0, 0, 0⟩⟩)) run₂ (fun _ => rfl)
      ⟨KvCall.proper_iff.mpr (by decide), (Option.some_get _).symm⟩
  have hthree : s₃.entries = some [(0, 10), (1, 20)] := by decide
  have run₄ : kvMachine.Reach (KvRun.Guarded KvRun.Positional) s₄ := by
    refine .step (a := .call (.kvGet 1)) run₃ ?_
      ⟨KvCall.proper_iff.mpr (by decide), (Option.some_get _).symm⟩
    intro m hm
    cases hthree.symm.trans hm
    rfl
  have run₅ : kvMachine.Reach (KvRun.Guarded KvRun.Positional) s₅ :=
    .step (a := .call (.remove 0)) run₄
      (fun h0 => absurd h0 (show s₄.memory.keys.list.size ≠ 0 by decide))
      ⟨KvCall.proper_iff.mpr (by decide), (Option.some_get _).symm⟩
  obtain ⟨hmap, hreturns⟩ := kv_is_map_of_positional run₅
  exact ⟨s₅, by decide, hmap, hreturns (.remove 1)
    (fun h0 => absurd h0 (show s₅.memory.keys.list.size ≠ 0 by decide))
    (KvCall.proper_iff.mpr (by decide)) (by decide)⟩

/-- `kv_get` of a key that was added panics when there are not so many keys. -/
theorem kv_not_map : ¬ ∀ r, kvMachine.Reachable r → r.IsMap ∧
    ∀ a : KvCall, a.Proper r.memory → (a.spec r.entries).isSome → ∃ r', r.call a = some r' := by
  intro h
  let s₁ := (blankStore.call .kvInit).get (by decide)
  let s₂ := (s₁.call (.add 7 10 ⟨100, ⟨0, 0, 0⟩⟩)).get (by decide)
  have run₁ : kvMachine.Reachable s₁ :=
    .step (a := .call .kvInit) (.start blankStore_start) trivial
      ⟨KvCall.proper_iff.mpr (by decide), (Option.some_get _).symm⟩
  have run₂ : kvMachine.Reachable s₂ :=
    .step (a := .call (.add 7 10 ⟨100, ⟨0, 0, 0⟩⟩)) run₁ trivial
      ⟨KvCall.proper_iff.mpr (by decide), (Option.some_get _).symm⟩
  obtain ⟨r', hcall⟩ := (h s₂ run₂).2 (.kvGet 7) (KvCall.proper_iff.mpr (by decide)) (by decide)
  have hnone : (s₂.call (.kvGet 7)).isNone = true := by decide
  rw [hcall] at hnone
  cases hnone

end NickOS3.Lib
