import NickOS3.Foundation.Links
import NickOS3.Foundation.Runs
import NickOS3.Lib.LinkedList

/-!
# Lists as sequences

What a list stands for: the data of its elements in the order of the forward chain. Each
operation is compared with the one on sequences, and the elements it reads and writes
through pointers are recorded.
-/

namespace NickOS3.Lib

open Foundation

/-- The blocks in use are distinct addresses of 32 bits, none of them null. -/
def ListState.BlocksDistinct (s : ListState) : Prop :=
  s.blocks.Nodup ∧ ∀ x ∈ s.blocks, x ≠ 0 ∧ x < 4294967296

/-- The elements `nodes` are the list: chained forward from the head to null, mirrored
back from the second to the first, and their data is the sequence. The first element
leads back to `p`. -/
structure Represents (s : ListState) (p : Nat) (nodes xs : List Nat) : Prop where
  next : Follows (fun a => (s.elems a).next) s.list.head nodes 0
  prev : Mirrors (fun a => (s.elems a).prev) p nodes
  data : nodes.map (fun a => (s.elems a).data) = xs
  size : s.list.size = nodes.length
  tail : ∀ x, nodes.getLast? = some x → s.list.tail = x
  nodup : nodes.Nodup
  live : ∀ x ∈ nodes, x ∈ s.blocks
  blocks : s.BlocksDistinct

/-- `malloc` returns blocks that are not in use. -/
structure Block.Fresh (b : Block) (s : ListState) : Prop where
  notNull : b.address ≠ 0
  fits : b.address < 4294967296
  notLive : b.address ∉ s.blocks

/-- What an operation dereferences besides what was dereferenced before. -/
def TouchesOnly (s s' : ListState) (allowed : Nat → Prop) : Prop :=
  ∀ a ∈ s'.touched, a ∈ s.touched ∨ allowed a

section Facts

variable {s : ListState} {p : Nat} {nodes xs : List Nat}

theorem Represents.notNull (h : Represents s p nodes xs) {x : Nat} (hx : x ∈ nodes) : x ≠ 0 :=
  (h.blocks.2 x (h.live x hx)).1

/-- Distinct addresses of 32 bits are too few for the size to wrap around. -/
theorem Represents.length_lt (h : Represents s p nodes xs) : nodes.length < 4294967296 := by
  have hsub : ∀ x ∈ 0 :: nodes, x < 4294967296 := by
    intro x hx
    rcases List.mem_cons.mp hx with rfl | hx
    · decide
    · exact (h.blocks.2 x (h.live x hx)).2
  have hnodup : (0 :: nodes).Nodup :=
    List.nodup_cons.mpr ⟨fun h0 => h.notNull h0 rfl, h.nodup⟩
  have hlen := length_le_of_nodup_of_lt hnodup hsub
  rw [List.length_cons] at hlen
  omega

theorem Represents.isEmpty_eq (h : Represents s p nodes xs) :
    isEmpty s = some (decide (xs = []), s) := by
  have hxs : xs = [] ↔ nodes = [] := by rw [← h.data, List.map_eq_nil_iff]
  have hsize : s.list.size = 0 ↔ nodes = [] := by rw [h.size, List.length_eq_zero_iff]
  change some (decide (s.list.size = 0), s) = _
  simp only [hsize, hxs]

theorem Block.Fresh.notMem {b : Block} (hb : b.Fresh s) (h : Represents s p nodes xs) :
    b.address ∉ nodes :=
  fun hmem => hb.notLive (h.live _ hmem)

theorem Block.Fresh.blocks {b : Block} (hb : b.Fresh s) (h : s.BlocksDistinct) :
    (b.address :: s.blocks).Nodup ∧
      ∀ x ∈ b.address :: s.blocks, x ≠ 0 ∧ x < 4294967296 := by
  refine ⟨List.nodup_cons.mpr ⟨hb.notLive, h.1⟩, ?_⟩
  intro x hx
  rcases List.mem_cons.mp hx with rfl | hx
  · exact ⟨hb.notNull, hb.fits⟩
  · exact h.2 x hx

/-- The addresses of live elements, with null and a new block, are too few to wrap around. -/
theorem Block.Fresh.length_lt {b : Block} (hb : b.Fresh s) (hblocks : s.BlocksDistinct)
    (hnodup : nodes.Nodup) (hlive : ∀ x ∈ nodes, x ∈ s.blocks) :
    nodes.length + 1 < 4294967296 := by
  have hsub : ∀ x ∈ 0 :: b.address :: nodes, x < 4294967296 := by
    intro x hx
    rcases List.mem_cons.mp hx with rfl | hx
    · decide
    · rcases List.mem_cons.mp hx with rfl | hx
      · exact hb.fits
      · exact (hblocks.2 x (hlive x hx)).2
  have hall : (0 :: b.address :: nodes).Nodup := by
    rw [List.nodup_cons, List.nodup_cons]
    refine ⟨?_, fun hmem => hb.notLive (hlive _ hmem), hnodup⟩
    intro h0
    rcases List.mem_cons.mp h0 with h0 | h0
    · exact hb.notNull h0.symm
    · exact (hblocks.2 0 (hlive 0 h0)).1 rfl
  have hlen := length_le_of_nodup_of_lt hall hsub
  simp only [List.length_cons] at hlen
  omega

/-- One more block leaves the size within a word. -/
theorem Block.Fresh.size {b : Block} (hb : b.Fresh s) (h : Represents s p nodes xs) :
    u32 (s.list.size + 1) = nodes.length + 1 := by
  rw [h.size, u32_of_lt (hb.length_lt h.blocks h.nodup h.live)]

end Facts

/-! ## What the calls do -/

section Runs

variable {s : ListState} {d : Nat} {b : Block}

theorem append_run_empty (h : s.list.size = 0) :
    Lib.append d b s = some ((), {
      elems := Function.update s.elems b.address ⟨d, 0, 0⟩
      list := ⟨u32 (0 + 1), b.address, b.address⟩
      blocks := b.address :: s.blocks
      touched := b.address :: b.address :: b.address :: s.touched }) := by
  simp [Lib.append, isEmpty, h, ListState.modifyElem]

theorem append_run (h : s.list.size ≠ 0) (hb : s.list.tail ≠ b.address) :
    Lib.append d b s = some ((), {
      elems := Function.update
        (Function.update s.elems b.address ⟨d, b.content.next, s.list.tail⟩) s.list.tail
        { s.elems s.list.tail with next := b.address }
      list := ⟨u32 (s.list.size + 1), s.list.head, b.address⟩
      blocks := b.address :: s.blocks
      touched := s.list.tail :: b.address :: b.address :: b.address :: s.touched }) := by
  simp [Lib.append, isEmpty, h, hb, ListState.modifyElem, ListState.touch]

theorem push_run (hb : s.list.head ≠ b.address) :
    push d b s = some ((), {
      elems := Function.update
        (Function.update s.elems b.address ⟨d, s.list.head, b.content.prev⟩) s.list.head
        { s.elems s.list.head with prev := b.address }
      list := ⟨u32 (s.list.size + 1), b.address, s.list.tail⟩
      blocks := b.address :: s.blocks
      touched := s.list.head :: b.address :: b.address :: s.touched }) := by
  simp [push, hb, ListState.modifyElem]

theorem pop_run_empty (h : s.list.size = 0) : pop s = some (0, s) := by
  simp [pop, isEmpty, h]

theorem pop_run (h : s.list.size ≠ 0) (hne : s.list.head ≠ (s.elems s.list.head).next) :
    pop s = some ((s.elems s.list.head).data, {
      elems := Function.update s.elems (s.elems s.list.head).next
        { s.elems (s.elems s.list.head).next with prev := 0 }
      list := ⟨u32 (s.list.size + 4294967295), (s.elems s.list.head).next, s.list.tail⟩
      blocks := s.blocks
      touched := s.list.head :: (s.elems s.list.head).next :: s.list.head :: s.touched }) := by
  simp [pop, isEmpty, h, hne, ListState.modifyElem, ListState.touch]

theorem unlinkNext_run (elem : Nat) :
    unlinkNext elem s = some ((),
      if elem = s.list.head then
        { s with
          elems := Function.update s.elems (s.elems elem).next
            { s.elems (s.elems elem).next with prev := 0 }
          list := { s.list with head := (s.elems elem).next }
          touched := (s.elems elem).next :: elem :: s.touched }
      else
        { s with
          elems := Function.update s.elems (s.elems elem).prev
            { s.elems (s.elems elem).prev with next := (s.elems elem).next }
          touched := (s.elems elem).prev :: elem :: elem :: s.touched }) := by
  by_cases h : elem = s.list.head
  · simp [unlinkNext, ← h, ListState.modifyElem, ListState.touch]
  · simp [unlinkNext, h, ListState.modifyElem, ListState.touch]

theorem unlinkPrev_run (elem : Nat) :
    unlinkPrev elem s = some ((),
      if elem = s.list.tail then
        { s with
          list := { s.list with tail := (s.elems elem).prev }
          touched := elem :: s.touched }
      else
        { s with
          elems := Function.update s.elems (s.elems elem).next
            { s.elems (s.elems elem).next with prev := (s.elems elem).prev }
          touched := (s.elems elem).next :: elem :: elem :: s.touched }) := by
  by_cases h : elem = s.list.tail
  · simp [unlinkPrev, ← h, ListState.touch]
  · simp [unlinkPrev, h, ListState.modifyElem, ListState.touch]

end Runs

section Append

variable {s : ListState} {p d : Nat} {nodes xs : List Nat} {b : Block}

theorem Represents.size_ne_zero (h : Represents s p nodes xs) (hne : nodes ≠ []) :
    s.list.size ≠ 0 := by
  rw [h.size]
  exact fun h0 => hne (List.length_eq_zero_iff.mp h0)

theorem Represents.getLast?_eq_tail (h : Represents s p nodes xs) (hne : nodes ≠ []) :
    nodes.getLast? = some s.list.tail := by
  cases hlast : nodes.getLast? with
  | none => exact absurd (List.getLast?_eq_none_iff.mp hlast) hne
  | some x => rw [h.tail x hlast]

/-- `append` on an empty list. -/
theorem Represents.append_empty (h : Represents s p [] xs) (hb : b.Fresh s) :
    ∃ s', Lib.append d b s = some ((), s') ∧
      Represents s' 0 [b.address] [d] ∧ TouchesOnly s s' fun a => a = b.address := by
  refine ⟨_, append_run_empty (by rw [h.size]; rfl), ?_, ?_⟩
  · constructor
    · simp
    · simp
    · simp
    · rfl
    · intro x hx
      simpa using hx
    · simp
    · simp
    · exact hb.blocks h.blocks
  · intro a ha
    simp at ha
    tauto

/-- `append` adds at the end, when the block holds null where the code leaves the forward
link of the new element unset. -/
theorem Represents.append (h : Represents s p nodes xs) (hb : b.Fresh s) (hne : nodes ≠ [])
    (hnext : b.content.next = 0) :
    ∃ s', Lib.append d b s = some ((), s') ∧
      Represents s' p (nodes ++ [b.address]) (xs ++ [d]) ∧
      TouchesOnly s s' fun a => a ∈ nodes ∨ a = b.address := by
  have hnot := hb.notMem h
  have hlast := h.getLast?_eq_tail hne
  have htail : s.list.tail ∈ nodes := List.mem_of_getLast? hlast
  have hne' : s.list.tail ≠ b.address := fun heq => hnot (heq ▸ htail)
  refine ⟨_, append_run (h.size_ne_zero hne) hne', ?_, ?_⟩
  · constructor
    · apply follows_append_cons.mpr
      constructor
      · apply h.next.retarget h.nodup
        · rw [if_neg hne]
        · intro z hz
          rw [hlast] at hz
          simp [← Option.some.inj hz]
        · intro z hz hzlast
          rw [hlast] at hzlast
          have hzt : z ≠ s.list.tail := fun heq => hzlast (by rw [heq])
          have hzb : z ≠ b.address := fun heq => hnot (heq ▸ hz)
          simp [hzt, hzb]
      · simp [hne'.symm, hnext]
    · apply mirrors_append.mpr
      constructor
      · apply h.prev.congr
        intro z hz
        have hzb : z ≠ b.address := fun heq => hnot (heq ▸ hz)
        by_cases hzt : z = s.list.tail <;> simp [hzt, hzb]
      · simp [hlast, hne'.symm]
    · rw [List.map_append, ← h.data]
      congr 1
      · apply List.map_congr_left
        intro z hz
        have hzb : z ≠ b.address := fun heq => hnot (heq ▸ hz)
        by_cases hzt : z = s.list.tail <;> simp [hzt, hzb]
      · simp [hne'.symm]
    · rw [hb.size h]
      simp
    · intro z hz
      simpa using hz
    · exact List.nodup_append.mpr ⟨h.nodup, List.nodup_singleton _, by
        rintro z hz _ (_ | ⟨_, ⟨⟩⟩) rfl
        exact hnot hz⟩
    · intro z hz
      rcases List.mem_append.mp hz with hz | hz
      · exact List.mem_cons_of_mem _ (h.live z hz)
      · exact List.mem_cons.mpr (.inl (List.mem_singleton.mp hz))
    · exact hb.blocks h.blocks
  · intro a ha
    simp only [List.mem_cons] at ha
    rcases ha with rfl | rfl | rfl | rfl | ha
    · exact .inr (.inl htail)
    all_goals first | exact .inr (.inr rfl) | exact .inl ha

end Append

section Push

variable {s : ListState} {p d : Nat} {nodes xs : List Nat} {b : Block}

/-- `push` adds at the front of a list that is not empty. Its first element leads back to
what the block held. -/
theorem Represents.push (h : Represents s p nodes xs) (hb : b.Fresh s) (hne : nodes ≠ []) :
    ∃ s', Lib.push d b s = some ((), s') ∧
      Represents s' b.content.prev (b.address :: nodes) (d :: xs) ∧
      TouchesOnly s s' fun a => a ∈ nodes ∨ a = b.address := by
  have hnot := hb.notMem h
  have hfirst := h.next.head_eq hne
  have hhead : s.list.head ∈ nodes := List.mem_of_head? hfirst
  have hne' : s.list.head ≠ b.address := fun heq => hnot (heq ▸ hhead)
  refine ⟨_, push_run hne', ?_, ?_⟩
  · constructor
    · refine ⟨rfl, ?_⟩
      simp only [Function.update_of_ne hne'.symm, Function.update_self]
      apply h.next.congr
      intro z hz
      have hzb : z ≠ b.address := fun heq => hnot (heq ▸ hz)
      by_cases hzh : z = s.list.head <;> simp [hzh, hzb]
    · constructor
      · simp [hne'.symm]
      · cases nodes with
        | nil => exact absurd rfl hne
        | cons x l =>
            obtain rfl : x = s.list.head := Option.some.inj hfirst
            refine ⟨by simp, ?_⟩
            apply h.prev.2.congr
            intro z hz
            have hzh : z ≠ s.list.head := fun heq => (List.nodup_cons.mp h.nodup).1 (heq ▸ hz)
            have hzb : z ≠ b.address := fun heq => hnot (heq ▸ List.mem_cons_of_mem _ hz)
            simp [hzh, hzb]
    · rw [List.map_cons, ← h.data]
      congr 1
      · simp [hne'.symm]
      · apply List.map_congr_left
        intro z hz
        have hzb : z ≠ b.address := fun heq => hnot (heq ▸ hz)
        by_cases hzh : z = s.list.head <;> simp [hzh, hzb]
    · rw [hb.size h]
      rfl
    · intro z hz
      rw [List.getLast?_cons, h.getLast?_eq_tail hne] at hz
      exact Option.some.inj hz
    · exact List.nodup_cons.mpr ⟨hnot, h.nodup⟩
    · intro z hz
      rcases List.mem_cons.mp hz with rfl | hz
      · exact List.mem_cons_self
      · exact List.mem_cons_of_mem _ (h.live z hz)
    · exact hb.blocks h.blocks
  · intro a ha
    simp only [List.mem_cons] at ha
    rcases ha with rfl | rfl | rfl | ha
    · exact .inr (.inl hhead)
    all_goals first | exact .inr (.inr rfl) | exact .inl ha

end Push

section Pop

variable {s : ListState} {p : Nat} {nodes xs : List Nat}

/-- One element less leaves the size within a word. -/
theorem Represents.size_pred (h : Represents s p nodes xs) (hne : nodes ≠ []) :
    u32 (s.list.size + 4294967295) = nodes.length - 1 := by
  have hlt := h.length_lt
  have hpos := List.length_pos_of_ne_nil hne
  rw [h.size]
  unfold u32
  omega

/-- `pop` returns and removes the first element. With a single element it writes through
the null pointer. -/
theorem Represents.pop {x : Nat} {l : List Nat} (h : Represents s p (x :: l) xs) :
    ∃ s', Lib.pop s = some (xs.head?.getD 0, s') ∧ Represents s' 0 l xs.tail ∧
      TouchesOnly s s' fun a => a ∈ x :: l ∨ a = 0 ∧ l = [] := by
  obtain ⟨rfl, hchain⟩ := h.next
  have hnext : Follows (fun a => (s.elems a).next) (s.elems s.list.head).next l 0 := hchain
  have hnotMem := (List.nodup_cons.mp h.nodup).1
  have hstart := hnext.start_mem
  have hne : s.list.head ≠ (s.elems s.list.head).next := by
    intro heq
    rcases hstart with h0 | hmem
    · exact h.notNull (List.mem_cons_self) (heq.trans h0)
    · rw [← heq] at hmem
      exact hnotMem hmem
  have hhead : xs.head?.getD 0 = (s.elems s.list.head).data := by rw [← h.data]; rfl
  rw [hhead]
  have hrun := pop_run (h.size_ne_zero (List.cons_ne_nil _ _)) hne
  rw [h.size_pred (List.cons_ne_nil _ _)] at hrun
  refine ⟨_, hrun, ?_, ?_⟩
  · constructor
    · apply hnext.congr
      intro z hz
      by_cases hzn : z = (s.elems s.list.head).next <;> simp [hzn]
    · cases l with
      | nil => trivial
      | cons y l =>
          obtain ⟨rfl, -⟩ := hnext
          refine ⟨by simp, ?_⟩
          apply h.prev.2.2.congr
          intro z hz
          have hzn : z ≠ (s.elems s.list.head).next := fun heq =>
            (List.nodup_cons.mp (List.nodup_cons.mp h.nodup).2).1 (heq ▸ hz)
          simp [hzn]
    · rw [← h.data, List.map_cons, List.tail_cons]
      apply List.map_congr_left
      intro z hz
      by_cases hzn : z = (s.elems s.list.head).next <;> simp [hzn]
    · simp
    · intro z hz
      exact h.tail z (by rw [List.getLast?_cons, hz]; rfl)
    · exact (List.nodup_cons.mp h.nodup).2
    · exact fun z hz => h.live z (List.mem_cons_of_mem _ hz)
    · exact h.blocks
  · intro a ha
    simp only [List.mem_cons] at ha
    rcases ha with rfl | rfl | rfl | ha
    · exact .inr (.inl List.mem_cons_self)
    · rcases hstart with h0 | hmem
      · cases l with
        | nil => exact .inr (.inr ⟨h0, rfl⟩)
        | cons y l => exact absurd (hnext.1.symm.trans h0) (h.notNull (by simp))
      · exact .inr (.inl (List.mem_cons_of_mem _ hmem))
    · exact .inr (.inl List.mem_cons_self)
    · exact .inl ha

end Pop

section Remove

variable {s : ListState} {p d : Nat} {nodes xs : List Nat}

/-- The loop of `remove` stops at the first element that holds the data, or at the last. -/
theorem findElem_run {a n : Nat} {t : List Nat} {c : ListState}
    (h : Follows (fun a => (s.elems a).next) a nodes 0) (hne : nodes ≠ []) (h0 : 0 ∉ nodes)
    (hfuel : nodes.length ≤ n) (hc : c = { s with touched := t }) :
    ∃ l₁ x l₂ t', nodes = l₁ ++ x :: l₂ ∧
      findElem d n a c = some (x, { s with touched := t' }) ∧
      (∀ z ∈ l₁, (s.elems z).data ≠ d) ∧ ((s.elems x).data = d ∨ l₂ = []) ∧
      ∀ z ∈ t', z ∈ t ∨ z ∈ nodes := by
  subst hc
  induction nodes generalizing a n t with
  | nil => exact absurd rfl hne
  | cons y l ih =>
      obtain ⟨rfl, h⟩ := h
      cases n with
      | zero => simp at hfuel
      | succ n =>
          by_cases hdata : (s.elems a).data = d
          · refine ⟨[], a, l, a :: t, rfl, ?_, by simp, .inl hdata, ?_⟩
            · simp [findElem, hdata, ListState.touch]
            · intro z hz
              rcases List.mem_cons.mp hz with rfl | hz
              · exact .inr List.mem_cons_self
              · exact .inl hz
          · by_cases hnext : (s.elems a).next = 0
            · cases l with
              | cons b l =>
                  have hb : 0 = b := hnext.symm.trans h.1
                  exact absurd (by simp [← hb]) h0
              | nil =>
                  refine ⟨[], a, [], a :: a :: t, rfl, ?_, by simp, .inr rfl, ?_⟩
                  · simp [findElem, hdata, hnext, ListState.touch]
                  · intro z hz
                    simp only [List.mem_cons] at hz
                    rcases hz with rfl | rfl | hz
                    · exact .inr List.mem_cons_self
                    · exact .inr List.mem_cons_self
                    · exact .inl hz
            · have hlne : l ≠ [] := by
                rintro rfl
                exact hnext h
              obtain ⟨l₁, x, l₂, t', rfl, hrun, hbefore, hstop, htouch⟩ :=
                ih (t := a :: a :: a :: t) h hlne (fun hmem => h0 (List.mem_cons_of_mem _ hmem))
                  (by simpa using hfuel)
              refine ⟨a :: l₁, x, l₂, t', rfl, ?_, ?_, hstop, ?_⟩
              · simp [findElem, hdata, hnext, ListState.touch, hrun]
              · intro z hz
                rcases List.mem_cons.mp hz with rfl | hz
                · exact hdata
                · exact hbefore z hz
              · intro z hz
                rcases htouch z hz with hz | hz
                · simp only [List.mem_cons] at hz
                  rcases hz with rfl | rfl | rfl | hz
                  · exact .inr List.mem_cons_self
                  · exact .inr List.mem_cons_self
                  · exact .inr List.mem_cons_self
                  · exact .inl hz
                · exact .inr (List.mem_cons_of_mem _ hz)

/-- The places of an element in the list: where it is, its links lead. -/
theorem Represents.around {x : Nat} {l₁ l₂ : List Nat}
    (h : Represents s p (l₁ ++ x :: l₂) xs) :
    (x = s.list.head ↔ l₁ = []) ∧ (x = s.list.tail ↔ l₂ = []) ∧
      (s.elems x).next = l₂.head?.getD 0 ∧ (s.elems x).prev = l₁.getLast?.getD p ∧
      (s.elems x).next ≠ x := by
  obtain ⟨hfirst, hrest⟩ := follows_append_cons.mp h.next
  have hnext : (s.elems x).next = l₂.head?.getD 0 := hrest.eq_head?_getD
  have hnodup := List.nodup_append.mp h.nodup
  have hx₂ : x ∉ l₂ := (List.nodup_cons.mp hnodup.2.1).1
  refine ⟨?_, ?_, hnext, (mirrors_append.mp h.prev).2.1, ?_⟩
  · rw [hfirst.eq_head?_getD]
    cases l₁ with
    | nil => simp
    | cons y l =>
        have hne : x ≠ y := fun heq => hnodup.2.2 y (by simp) x (by simp) heq.symm
        simp [hne]
  · have hlast := h.getLast?_eq_tail (by simp)
    rw [List.getLast?_append_of_ne_nil _ (List.cons_ne_nil _ _)] at hlast
    cases l₂ with
    | nil => simpa using Option.some.inj hlast
    | cons z l =>
        rw [List.getLast?_cons_cons] at hlast
        have hmem : s.list.tail ∈ z :: l := List.mem_of_getLast? hlast
        have hne : x ≠ s.list.tail := fun heq => hx₂ (heq ▸ hmem)
        simp [hne]
  · rw [hnext]
    cases l₂ with
    | nil => exact (h.notNull (by simp)).symm
    | cons z l =>
        intro heq
        exact hx₂ (by simp [← heq])

/-- The element before, or the head, leads past the removed element. -/
theorem Represents.unlinkNext {x : Nat} {l₁ l₂ : List Nat}
    (h : Represents s p (l₁ ++ x :: l₂) xs) :
    ∃ s', Lib.unlinkNext x s = some ((), s') ∧
      Follows (fun a => (s'.elems a).next) s'.list.head (l₁ ++ l₂) 0 ∧
      (∀ a, (s'.elems a).data = (s.elems a).data) ∧ (s'.elems x).next = (s.elems x).next ∧
      (∀ a, a ≠ (s.elems x).next → (s'.elems a).prev = (s.elems a).prev) ∧
      s'.list.tail = s.list.tail ∧ s'.list.size = s.list.size ∧ s'.blocks = s.blocks ∧
      TouchesOnly s s' fun a => a ∈ l₁ ++ x :: l₂ ∨ a = 0 ∧ l₁ = [] ∧ l₂ = [] := by
  obtain ⟨hhead, -, hnext, hprev, hself⟩ := h.around
  have hnodup := List.nodup_append.mp h.nodup
  refine ⟨_, unlinkNext_run x, ?_⟩
  by_cases hl₁ : l₁ = []
  · rw [if_pos (hhead.mpr hl₁)]
    subst hl₁
    refine ⟨?_, ?_, ?_, ?_, rfl, rfl, rfl, ?_⟩
    · apply h.next.2.congr
      intro z hz
      by_cases hzn : z = (s.elems x).next <;> simp [hzn]
    · intro a
      by_cases ha : a = (s.elems x).next <;> simp [ha]
    · simp [hself.symm]
    · intro a ha
      simp [ha]
    · intro a ha
      simp only [List.mem_cons] at ha
      rcases ha with rfl | rfl | ha
      · rw [hnext]
        cases l₂ with
        | nil => exact .inr (.inr ⟨rfl, rfl, rfl⟩)
        | cons z l => exact .inr (.inl (by simp))
      · exact .inr (.inl (by simp))
      · exact .inl ha
  · rw [if_neg (fun heq => hl₁ (hhead.mp heq))]
    have hlast : l₁.getLast? = some (s.elems x).prev := by
      cases hl : l₁.getLast? with
      | none => exact absurd (List.getLast?_eq_none_iff.mp hl) hl₁
      | some y => rw [hprev, hl]; rfl
    have hmem : (s.elems x).prev ∈ l₁ := List.mem_of_getLast? hlast
    have hne : x ≠ (s.elems x).prev := fun heq =>
      hnodup.2.2 _ hmem x (by simp) heq.symm
    refine ⟨?_, ?_, ?_, ?_, rfl, rfl, rfl, ?_⟩
    · apply h.next.unlink hnodup.1
      · rw [if_neg hl₁]
      · intro z hz
        rw [hlast] at hz
        simp [← Option.some.inj hz]
      · intro z _ hzlast
        rw [hlast] at hzlast
        have hzp : z ≠ (s.elems x).prev := fun heq => hzlast (by rw [heq])
        simp [hzp]
      · intro z hz
        have hzp : z ≠ (s.elems x).prev := fun heq =>
          hnodup.2.2 _ hmem z (by simp [hz]) heq.symm
        simp [hzp]
    · intro a
      by_cases ha : a = (s.elems x).prev <;> simp [ha]
    · simp [hne]
    · intro a _
      by_cases ha : a = (s.elems x).prev <;> simp [ha]
    · intro a ha
      simp only [List.mem_cons] at ha
      rcases ha with rfl | rfl | rfl | ha
      · exact .inr (.inl (by simp [hmem]))
      · exact .inr (.inl (by simp))
      · exact .inr (.inl (by simp))
      · exact .inl ha

/-- The element behind, or the tail, leads back past the removed element. -/
theorem Represents.unlinkPrev {x : Nat} {l₁ l₂ : List Nat} {s₁ : ListState}
    (h : Represents s p (l₁ ++ x :: l₂) xs) (hx : (s₁.elems x).next = (s.elems x).next)
    (hprevs : ∀ a, a ≠ (s.elems x).next → (s₁.elems a).prev = (s.elems a).prev)
    (htails : s₁.list.tail = s.list.tail) :
    ∃ s', Lib.unlinkPrev x s₁ = some ((), s') ∧
      Mirrors (fun a => (s'.elems a).prev) p (l₁ ++ l₂) ∧
      (∀ y, (l₁ ++ l₂).getLast? = some y → s'.list.tail = y) ∧
      (∀ a, (s'.elems a).data = (s₁.elems a).data) ∧
      (∀ a, (s'.elems a).next = (s₁.elems a).next) ∧ s'.list.head = s₁.list.head ∧
      s'.list.size = s₁.list.size ∧ s'.blocks = s₁.blocks ∧
      TouchesOnly s₁ s' fun a => a ∈ l₁ ++ x :: l₂ := by
  obtain ⟨-, htail, hnext, hprev, hself⟩ := h.around
  have hnodup := List.nodup_append.mp h.nodup
  have hxprev := hprevs x hself.symm
  refine ⟨_, unlinkPrev_run x, ?_⟩
  cases l₂ with
  | nil =>
      rw [if_pos (htails.symm ▸ htail.mpr rfl)]
      have hnext : (s.elems x).next = 0 := hnext
      refine ⟨?_, ?_, fun _ => rfl, fun _ => rfl, rfl, rfl, rfl, ?_⟩
      · apply h.prev.unlink
        · intro z hz
          exact hprevs z (hnext ▸ h.notNull (by simp [hz]))
        · simp
        · simp
      · intro y hy
        rw [List.append_nil] at hy
        rw [hy] at hprev
        exact hxprev.trans hprev
      · intro a ha
        rcases List.mem_cons.mp ha with rfl | ha
        · exact .inr (by simp)
        · exact .inl ha
  | cons y l =>
      rw [if_neg (fun heq => List.cons_ne_nil _ _ (htail.mp (heq.trans htails)))]
      have hnext : (s.elems x).next = y := hnext
      have hne : x ≠ y := fun heq => hself (hnext.trans heq.symm)
      rw [hx, hnext]
      refine ⟨?_, ?_, ?_, ?_, rfl, rfl, rfl, ?_⟩
      · apply h.prev.unlink
        · intro z hz
          have hzy : z ≠ y := hnodup.2.2 z hz y (by simp)
          simp [hzy, hprevs z (hnext ▸ hzy)]
        · intro z hz
          simp [← Option.some.inj hz, hxprev]
        · intro z hz
          have hzy : z ≠ y := fun heq =>
            (List.nodup_cons.mp (List.nodup_cons.mp hnodup.2.1).2).1 (heq ▸ hz)
          simp [hzy, hprevs z (hnext ▸ hzy)]
      · intro z hz
        refine htails.trans (h.tail z ?_)
        rw [List.getLast?_append_of_ne_nil _ (List.cons_ne_nil _ _)] at hz ⊢
        rwa [List.getLast?_cons_cons]
      · intro a
        by_cases ha : a = y <;> simp [ha]
      · intro a
        by_cases ha : a = y <;> simp [ha]
      · intro a ha
        simp only [List.mem_cons] at ha
        rcases ha with rfl | rfl | rfl | ha
        · exact .inr (by simp)
        · exact .inr (by simp)
        · exact .inr (by simp)
        · exact .inl ha

/-- Only the history of accesses is different. -/
theorem Represents.touched (h : Represents s p nodes xs) (t : List Nat) :
    Represents { s with touched := t } p nodes xs :=
  ⟨h.next, h.prev, h.data, h.size, h.tail, h.nodup, h.live, h.blocks⟩

/-- `remove` deletes the first occurrence. With a single element that holds the data it
writes through the null pointer. -/
theorem Represents.remove (h : Represents s p nodes xs) (hne : nodes ≠ []) :
    ∃ s', Lib.remove d s = some (decide (d ∈ xs), s') ∧
      Represents s' p (nodes.eraseP fun a => (s.elems a).data = d) (xs.erase d) ∧
      TouchesOnly s s' fun a => a ∈ nodes ∨ a = 0 ∧ xs = [d] := by
  obtain ⟨l₁, x, l₂, t, rfl, hfind, hbefore, hstop, htouch⟩ :=
    findElem_run (d := d) (n := loopBound) (c := s) h.next hne
      (fun h0 => h.notNull h0 rfl) h.length_lt.le rfl
  have hnot : d ∉ l₁.map fun a => (s.elems a).data := by
    intro hmem
    obtain ⟨z, hz, heq⟩ := List.mem_map.mp hmem
    exact hbefore z hz heq
  by_cases hdata : (s.elems x).data = d
  · have hread := h.touched (x :: t)
    obtain ⟨s₁, hrun₁, hchain, hdata₁, hx₁, hprev₁, htail₁, hsize₁, hblocks₁, htouch₁⟩ :=
      hread.unlinkNext
    obtain ⟨s₂, hrun₂, hmirror, htail₂, hdata₂, hnext₂, hhead₂, hsize₂, hblocks₂, htouch₂⟩ :=
      hread.unlinkPrev hx₁ hprev₁ htail₁
    have hxs : xs = l₁.map (fun a => (s.elems a).data) ++
        d :: l₂.map (fun a => (s.elems a).data) := by
      rw [← h.data, List.map_append, List.map_cons, hdata]
    have hsize := h.size_pred hne
    have hmem : d ∈ xs := by simp [hxs]
    have herase : (l₁ ++ x :: l₂).eraseP (fun a => (s.elems a).data = d) = l₁ ++ l₂ := by
      rw [List.eraseP_append_right _ (by simpa using hbefore),
        List.eraseP_cons_of_pos (by simpa using hdata)]
    rw [herase]
    refine ⟨{ s₂ with list := { s₂.list with size := (l₁ ++ l₂).length } }, ?_, ?_, ?_⟩
    · have hlen : u32 (s₂.list.size + 4294967295) = (l₁ ++ l₂).length := by
        rw [hsize₂, hsize₁, hsize]
        simp
      simp [Lib.remove, hfind, hdata, hmem, ListState.touch, hrun₁, hrun₂, hlen]
    · constructor
      · rw [hhead₂]
        exact hchain.congr fun z _ => hnext₂ z
      · exact hmirror
      · rw [hxs, List.erase_append_right _ hnot, List.erase_cons_head, List.map_append]
        simp only [hdata₂, hdata₁]
      · rfl
      · exact htail₂
      · exact h.nodup.sublist (by simp)
      · intro z hz
        have hlive := h.live z (mem_append_cons_of_mem hz)
        rw [hblocks₂, hblocks₁]
        exact hlive
      · rw [hblocks₂, hblocks₁]
        exact h.blocks
    · intro a ha
      rcases htouch₂ a ha with ha | ha
      · rcases htouch₁ a ha with ha | ha
        · rcases List.mem_cons.mp ha with rfl | ha
          · exact .inr (.inl (by simp))
          · exact (htouch a ha).imp id .inl
        · exact .inr (ha.imp id fun h0 => ⟨h0.1, by simp [hxs, h0.2]⟩)
      · exact .inr (.inl ha)
  · have hl₂ : l₂ = [] := hstop.resolve_left hdata
    subst hl₂
    have hmem : d ∉ xs := by
      rw [← h.data, List.map_append, List.mem_append]
      rintro (hmem | hmem)
      · exact hnot hmem
      · exact hdata (List.mem_singleton.mp hmem).symm
    have herase : (l₁ ++ [x]).eraseP (fun a => (s.elems a).data = d) = l₁ ++ [x] := by
      rw [List.eraseP_append_right _ (by simpa using hbefore),
        List.eraseP_cons_of_neg (by simpa using hdata), List.eraseP_nil]
    rw [herase]
    refine ⟨{ s with touched := x :: t }, ?_, ?_, ?_⟩
    rotate_left
    · rw [List.erase_of_not_mem hmem]
      exact h.touched (x :: t)
    · intro a ha
      rcases List.mem_cons.mp ha with rfl | ha
      · exact .inr (.inl (by simp))
      · exact (htouch a ha).imp id .inl
    · simp [Lib.remove, hfind, hdata, hmem, ListState.touch]

theorem findElem_last {elem n : Nat} (hfuel : 0 < n) (hdata : (s.elems elem).data ≠ d)
    (hnext : (s.elems elem).next = 0) :
    findElem d n elem s = some (elem, { s with touched := elem :: elem :: s.touched }) := by
  cases n with
  | zero => exact absurd hfuel (Nat.lt_irrefl 0)
  | succ n => simp [findElem, hdata, hnext, ListState.touch]

/-- `remove` on an empty list looks at the null address and finds nothing, when what lies
there neither holds the data nor leads on. -/
theorem Represents.remove_empty (h : Represents s p [] xs) (hnext : (s.elems 0).next = 0)
    (hdata : (s.elems 0).data ≠ d) :
    ∃ s', Lib.remove d s = some (false, s') ∧ Represents s' p [] xs ∧
      TouchesOnly s s' fun a => a = 0 := by
  have hhead : s.list.head = 0 := h.next
  have hfind := findElem_last (n := loopBound) (by decide) hdata hnext
  refine ⟨{ s with touched := 0 :: 0 :: 0 :: s.touched }, ?_, h.touched _, ?_⟩
  · simp [Lib.remove, hhead, hfind, hdata, ListState.touch]
  · intro a ha
    simp only [List.mem_cons] at ha
    tauto

end Remove

section Get

variable {s : ListState} {p : Nat} {nodes xs : List Nat}

/-- The loop of `list_get` along a chain. -/
theorem elemAt_run {a idx stop : Nat} {t : List Nat} {c : ListState}
    (h : Follows (fun a => (s.elems a).next) a nodes stop) (hidx : idx < nodes.length)
    (hc : c = { s with touched := t }) :
    ∃ x t', nodes[idx]? = some x ∧ elemAt idx a c = some (x, { s with touched := t' }) ∧
      ∀ z ∈ t', z ∈ t ∨ z ∈ nodes := by
  subst hc
  induction nodes generalizing a idx t with
  | nil => simp at hidx
  | cons y l ih =>
      obtain ⟨rfl, h⟩ := h
      cases idx with
      | zero => exact ⟨a, t, rfl, rfl, fun z hz => .inl hz⟩
      | succ idx =>
          obtain ⟨x, t', hget, hrun, htouch⟩ :=
            ih (t := a :: t) h (by simpa using hidx)
          refine ⟨x, t', by simpa using hget, ?_, ?_⟩
          · simp [elemAt, ListState.touch, hrun]
          · intro z hz
            rcases htouch z hz with hz | hz
            · rcases List.mem_cons.mp hz with rfl | hz
              · exact .inr List.mem_cons_self
              · exact .inl hz
            · exact .inr (List.mem_cons_of_mem _ hz)

/-- `list_get` returns the data at the index. -/
theorem Represents.listGet {idx : Nat} (h : Represents s p nodes xs) (hidx : idx < xs.length) :
    ∃ s', Lib.listGet idx s = some (xs[idx]?.getD 0, s') ∧ Represents s' p nodes xs ∧
      TouchesOnly s s' fun a => a ∈ nodes := by
  have hlen : nodes.length = xs.length := by rw [← h.data, List.length_map]
  obtain ⟨x, t, hget, hrun, htouch⟩ :=
    elemAt_run (c := s) h.next (hlen ▸ hidx) rfl
  have hdata : xs[idx]?.getD 0 = (s.elems x).data := by
    rw [← h.data, List.getElem?_map, hget]
    rfl
  have hsize : ¬ s.list.size ≤ idx := by
    rw [h.size, hlen]
    omega
  refine ⟨{ s with touched := x :: t }, ?_, h.touched _, ?_⟩
  · simp [Lib.listGet, hsize, hrun, hdata, ListState.touch]
  · intro a ha
    rcases List.mem_cons.mp ha with rfl | ha
    · exact .inr (List.mem_of_getElem? hget)
    · exact htouch a ha

end Get

section Init

variable {s : ListState}

theorem ListState.BlocksDistinct.listInit (h : s.BlocksDistinct) :
    ∃ s', Lib.listInit s = some ((), s') ∧ Represents s' 0 [] [] ∧ s'.touched = s.touched := by
  refine ⟨{ s with list := ⟨0, 0, 0⟩ }, rfl, ?_, rfl⟩
  exact ⟨rfl, trivial, rfl, rfl, by simp, List.nodup_nil, by simp, h⟩

/-- `list_init_with` makes a list of one element, when the block holds null where the code
leaves the forward link unset. -/
theorem ListState.BlocksDistinct.listInitWith {d : Nat} {b : Block} (h : s.BlocksDistinct)
    (hb : b.Fresh s)
    (hnext : b.content.next = 0) :
    ∃ s', Lib.listInitWith d b s = some ((), s') ∧
      Represents s' b.content.prev [b.address] [d] ∧
      TouchesOnly s s' fun a => a = b.address := by
  refine ⟨{ s with
    elems := Function.update s.elems b.address ⟨d, b.content.next, b.content.prev⟩
    list := ⟨1, b.address, b.address⟩
    blocks := b.address :: s.blocks
    touched := b.address :: s.touched }, ?_, ?_, ?_⟩
  · simp [Lib.listInitWith, ListState.modifyElem]
  · constructor
    · simp [hnext]
    · simp
    · simp
    · rfl
    · intro x hx
      simpa using hx
    · simp
    · simp
    · exact hb.blocks h
  · intro a ha
    rcases List.mem_cons.mp ha with rfl | ha
    · exact .inr rfl
    · exact .inl ha

end Init

end NickOS3.Lib
