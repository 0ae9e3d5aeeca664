import NickOS3.Lib.Calls

/-!
# The key-value store

`kv_init`, `kv_init_with`, `add`, `remove` and `kv_get`. The store is a linked list of keys
with a value beside each. `kv_get` takes its argument for a position, not for a key: where
the key of the entry at that position is the argument, the store is a map.
-/

namespace NickOS3.Lib

open Foundation

/-- `kv`, and the memory of its elements: an element holds the key where an element of a
list holds its data, and the value besides. -/
structure KvState where
  keys : ListState
  values : Nat → Nat

/-- A computation on the store; it fails when it panics or does not end. -/
abbrev KvM := StateT KvState Option

namespace Kv

/-- A computation that leaves the values alone. -/
def onKeys {α : Type} (m : ListM α) : KvM α :=
  fun s => (m s.keys).map fun r => (r.1, { s with keys := r.2 })

def readValue (elem : Nat) : KvM Nat := fun s => some (s.values elem, s)

def writeValue (elem v : Nat) : KvM Unit :=
  fun s => some ((), { s with values := Function.update s.values elem v })

/-! ## Operations -/

/-- A new empty store. -/
def kvInit : KvM Unit := onKeys listInit

/-- A new store with one element. -/
def kvInitWith (key value : Nat) (block : Block) : KvM Unit := do
  onKeys (setSize 1)
  let elem ← onKeys (malloc block)
  onKeys (setHead elem)
  onKeys (setTail elem)
  onKeys (writeData (← onKeys head) key)
  writeValue (← onKeys head) value
  onKeys (setSize 1)

def add (key value : Nat) (block : Block) : KvM Unit := do
  let elem ← onKeys (malloc block)
  onKeys (writeData elem key)
  writeValue elem value
  if ← onKeys isEmpty then
    onKeys (setHead elem)
    onKeys (setTail elem)
    onKeys (writePrev elem 0)
    onKeys (writeNext elem 0)
    onKeys (setSize (u32 ((← onKeys size) + 1)))
  else
    onKeys (writePrev elem (← onKeys tail))
    onKeys (setTail elem)
    onKeys (writeNext (← onKeys (readPrev elem)) elem)
    onKeys (setSize (u32 ((← onKeys size) + 1)))

/-- `remove` goes like that of a list, with the key in the place of the data. -/
def remove (key : Nat) : KvM Bool := onKeys (Lib.remove key)

/-- `kv_get`; it panics when the index is out of bounds. -/
def kvGet (idx : Nat) : KvM Nat := do
  if idx ≥ (← onKeys size) then fun _ => none
  else readValue (← onKeys (elemAt idx (← onKeys head)))

end Kv

/-! ## What the calls do -/

section Runs

variable {α β : Type} {s : KvState} {key value : Nat} {b : Block}

@[simp] theorem kv_bind_run (m : KvM α) (f : α → KvM β) :
    (m >>= f) s = (m s).bind fun r => f r.1 r.2 := rfl

@[simp] theorem kv_map_run (f : α → β) (m : KvM α) :
    (f <$> m) s = (m s).map fun r => (f r.1, r.2) := by
  cases h : m s <;> simp [Functor.map, StateT.map, h]

@[simp] theorem kv_pure_run (a : α) : (pure a : KvM α) s = some (a, s) := rfl

@[simp] theorem onKeys_run (m : ListM α) :
    Kv.onKeys m s = (m s.keys).map fun r => (r.1, { s with keys := r.2 }) := rfl

@[simp] theorem writeValue_run (elem v : Nat) :
    Kv.writeValue elem v s = some ((), { s with values := Function.update s.values elem v }) := rfl

@[simp] theorem readValue_run (elem : Nat) :
    Kv.readValue elem s = some (s.values elem, s) := rfl

/-- `add` appends the key and puts the value beside it. -/
theorem add_run :
    Kv.add key value b s = (Lib.append key b s.keys).map fun r =>
      ((), ⟨r.2, Function.update s.values b.address value⟩) := by
  by_cases hempty : s.keys.list.size = 0
  · simp [Kv.add, Lib.append, isEmpty, hempty, ListState.modifyElem]
  · simp [Kv.add, Lib.append, isEmpty, hempty, ListState.modifyElem, ListState.touch]

theorem kvInitWith_run :
    Kv.kvInitWith key value b s = (Lib.listInitWith key b s.keys).map fun r =>
      ((), ⟨r.2, Function.update s.values b.address value⟩) := by
  simp [Kv.kvInitWith, listInitWith, ListState.modifyElem]

end Runs

/-! ## Entries -/

section Entries

variable {α : Type} {l : List α} {f g : α → Nat} {m : List (Nat × Nat)} {k v i : Nat}

theorem map_pair_eq (hf : l.map f = m.map Prod.fst) (hg : l.map g = m.map Prod.snd) :
    l.map (fun a => (f a, g a)) = m := by
  induction l generalizing m with
  | nil => simpa using hf
  | cons a l ih =>
      cases m with
      | nil => simp at hf
      | cons e m =>
          rw [List.map_cons, List.map_cons, List.cons.injEq] at hf hg
          rw [List.map_cons, ih hf.2 hg.2, hf.1, hg.1]

/-- Where keys are distinct, an entry is what its key is looked up to. -/
theorem lookup_of_getElem? (hnodup : (m.map Prod.fst).Nodup) (h : m[i]? = some (k, v)) :
    m.lookup k = some v := by
  induction m generalizing i with
  | nil => simp at h
  | cons e m ih =>
      rw [List.map_cons, List.nodup_cons] at hnodup
      cases i with
      | zero =>
          obtain rfl : e = (k, v) := by simpa using h
          exact List.lookup_cons_self
      | succ i =>
          rw [List.getElem?_cons_succ] at h
          have hmem : k ∈ m.map Prod.fst := List.mem_map.mpr ⟨_, List.mem_of_getElem? h, rfl⟩
          have hne : (k == e.1) = false := by
            rw [beq_eq_false_iff_ne]
            rintro rfl
            exact hnodup.1 hmem
          obtain ⟨key, value⟩ := e
          rw [List.lookup_cons, hne]
          exact ih hnodup.2 h

theorem keys_eraseP : (m.eraseP fun e => e.1 = k).map Prod.fst = (m.map Prod.fst).erase k := by
  induction m with
  | nil => rfl
  | cons e m ih =>
      by_cases he : e.1 = k
      · rw [List.eraseP_cons_of_pos (by simpa using he), List.map_cons, he, List.erase_cons_head]
      · rw [List.eraseP_cons_of_neg (by simpa using he), List.map_cons, List.map_cons, ih,
          List.erase_cons_tail (by simpa using he)]

end Entries

/-- The store holds the entries: its elements are a list of their keys, and beside each key
is its value. -/
structure KvState.Holds (s : KvState) (p : Nat) (nodes : List Nat) (m : List (Nat × Nat)) :
    Prop where
  keys : Represents s.keys p nodes (m.map Prod.fst)
  values : nodes.map s.values = m.map Prod.snd
  distinct : (m.map Prod.fst).Nodup

section Operations

variable {s : KvState} {p : Nat} {nodes : List Nat} {m : List (Nat × Nat)} {key value : Nat}
  {b : Block}

theorem KvState.Holds.entries (h : s.Holds p nodes m) :
    nodes.map (fun a => ((s.keys.elems a).data, s.values a)) = m :=
  map_pair_eq h.keys.data h.values

theorem KvState.Holds.values_append (h : s.Holds p nodes m) (hb : b.address ∉ nodes) :
    (nodes ++ [b.address]).map (Function.update s.values b.address value)
      = (m ++ [(key, value)]).map Prod.snd := by
  have hsame : nodes.map (Function.update s.values b.address value) = nodes.map s.values := by
    apply List.map_congr_left
    intro a ha
    exact Function.update_of_ne (ne_of_mem_of_not_mem ha hb) _ _
  rw [List.map_append, List.map_append, hsame, h.values, List.map_singleton,
    List.map_singleton, Function.update_self]

theorem KvState.Holds.distinct_append (h : s.Holds p nodes m) (hkey : key ∉ m.map Prod.fst) :
    ((m ++ [(key, value)]).map Prod.fst).Nodup := by
  rw [List.map_append, List.map_singleton, List.nodup_append]
  refine ⟨h.distinct, List.nodup_singleton _, ?_⟩
  intro a ha c hc
  rw [List.mem_singleton.mp hc]
  exact ne_of_mem_of_not_mem ha hkey

theorem KvState.Holds.add (h : s.Holds p nodes m) (hb : b.Fresh s.keys)
    (hkey : key ∉ m.map Prod.fst) (hnext : s.keys.list.size ≠ 0 → b.content.next = 0) :
    ∃ s' p', Kv.add key value b s = some ((), s') ∧
      s'.Holds p' (nodes ++ [b.address]) (m ++ [(key, value)]) := by
  have hrun : ∃ l p', Lib.append key b s.keys = some ((), l) ∧
      Represents l p' (nodes ++ [b.address]) (m.map Prod.fst ++ [key]) := by
    by_cases hne : nodes = []
    · subst hne
      have hm : m.map Prod.fst = [] := by rw [← h.keys.data, List.map_nil]
      obtain ⟨l, happend, hrep, -⟩ := h.keys.append_empty (d := key) hb
      exact ⟨l, 0, happend, by rw [hm]; exact hrep⟩
    · obtain ⟨l, happend, hrep, -⟩ :=
        h.keys.append (d := key) hb hne (hnext (h.keys.size_ne_zero hne))
      exact ⟨l, p, happend, hrep⟩
  obtain ⟨l, p', happend, hrep⟩ := hrun
  refine ⟨_, p', by rw [add_run, happend]; rfl, ?_, h.values_append (hb.notMem h.keys),
    h.distinct_append hkey⟩
  rw [List.map_append]
  exact hrep

/-- `remove` on an empty store finds nothing when what lies at the null address has another
key and does not lead on. -/
theorem KvState.Holds.remove (h : s.Holds p nodes m)
    (hempty : s.keys.list.size = 0 → (s.keys.elems 0).next = 0 ∧ (s.keys.elems 0).data ≠ key) :
    ∃ s' nodes', Kv.remove key s = some (decide (key ∈ m.map Prod.fst), s') ∧
      s'.Holds p nodes' (m.eraseP fun e => e.1 = key) := by
  by_cases hne : nodes = []
  · subst hne
    obtain rfl : m = [] := by rw [← h.entries, List.map_nil]
    obtain ⟨hnext, hdata⟩ := hempty h.keys.size
    obtain ⟨l, hrun, hrep, -⟩ := h.keys.remove_empty hnext hdata
    exact ⟨{ s with keys := l }, [], by simp [Kv.remove, hrun], hrep, rfl, List.nodup_nil⟩
  · obtain ⟨l, hrun, hrep, -⟩ := Represents.remove (d := key) h.keys hne
    refine ⟨{ s with keys := l }, nodes.eraseP fun a => (s.keys.elems a).data = key,
      by simp [Kv.remove, hrun], ?_, ?_, ?_⟩
    · rw [keys_eraseP]
      exact hrep
    · rw [← h.entries, List.eraseP_map, List.map_map]
      rfl
    · rw [keys_eraseP]
      exact h.distinct.erase _

/-- `kv_get` gives the value of the entry at a position. -/
theorem KvState.Holds.kvGet (h : s.Holds p nodes m) {e : Nat × Nat} (hget : m[key]? = some e) :
    ∃ s', Kv.kvGet key s = some (e.2, s') ∧ s'.Holds p nodes m := by
  have hlen : nodes.length = m.length := by rw [← h.entries, List.length_map]
  have hlt : key < nodes.length := by
    rw [hlen]
    exact (List.getElem?_eq_some_iff.mp hget).1
  obtain ⟨x, t, hx, hrun, -⟩ := elemAt_run (c := s.keys) h.keys.next hlt rfl
  have hvalue : e = ((s.keys.elems x).data, s.values x) := by
    rw [← h.entries, List.getElem?_map, hx] at hget
    exact (Option.some.inj hget).symm
  have hsize : ¬ s.keys.list.size ≤ key := by
    rw [h.keys.size]
    omega
  refine ⟨{ s with keys := { s.keys with touched := t } }, ?_, h.keys.touched t, h.values,
    h.distinct⟩
  simp [Kv.kvGet, hsize, hrun, hvalue]

end Operations

end NickOS3.Lib
