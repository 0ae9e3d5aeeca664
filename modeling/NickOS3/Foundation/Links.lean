import Mathlib.Data.List.Basic
import Mathlib.Data.List.Nodup
import Mathlib.Data.List.Perm.Subperm
import Mathlib.Data.List.Range

/-!
# Pointer chains

`Follows next a l stop` says that the pointer `a` leads, along `next`, through
exactly the nodes of `l` and then arrives at `stop`; `Mirrors prev p l` says that
`prev` leads back through the same nodes and from the first of them to `p`. The
second half is the loop that follows a pointer while a test holds.
-/

namespace Foundation

variable {α : Type*}

/-- From the pointer `a`, `next` visits the nodes of `l` and then reaches `stop`. -/
def Follows (next : α → α) : α → List α → α → Prop
  | a, [], stop => a = stop
  | a, b :: l, stop => a = b ∧ Follows next (next b) l stop

@[simp] theorem follows_nil {next : α → α} {a stop : α} :
    Follows next a [] stop ↔ a = stop := Iff.rfl

@[simp] theorem follows_cons {next : α → α} {a b stop : α} {l : List α} :
    Follows next a (b :: l) stop ↔ a = b ∧ Follows next (next b) l stop := Iff.rfl

instance instDecidableFollows [DecidableEq α] (next : α → α) : (a : α) → (l : List α) → (stop : α) →
    Decidable (Follows next a l stop)
  | a, [], stop => inferInstanceAs (Decidable (a = stop))
  | a, b :: l, stop =>
      have := instDecidableFollows next (next b) l stop
      inferInstanceAs (Decidable (a = b ∧ Follows next (next b) l stop))

/-- A chain through `l₁` and then `c` is a chain through `l₁` that arrives at `c`. -/
theorem follows_append_cons {next : α → α} {a c stop : α} {l₁ l₂ : List α} :
    Follows next a (l₁ ++ c :: l₂) stop ↔
      Follows next a l₁ c ∧ Follows next (next c) l₂ stop := by
  induction l₁ generalizing a with
  | nil => simp
  | cons b l ih => simp [ih, and_assoc]

theorem follows_append {next : α → α} {a stop : α} {l₁ l₂ : List α} :
    Follows next a (l₁ ++ l₂) stop ↔
      ∃ mid, Follows next a l₁ mid ∧ Follows next mid l₂ stop := by
  induction l₁ generalizing a with
  | nil => simp
  | cons b l ih => simp [ih, and_assoc]

/-- Only the links of the chain's own nodes matter. -/
theorem Follows.congr {next next' : α → α} {a stop : α} {l : List α}
    (h : Follows next a l stop) (heq : ∀ x ∈ l, next' x = next x) :
    Follows next' a l stop := by
  induction l generalizing a with
  | nil => exact h
  | cons b l ih =>
      refine ⟨h.1, ?_⟩
      rw [heq b (by simp)]
      exact ih h.2 fun x hx => heq x (by simp [hx])

/-- Redirecting the last link of a chain redirects where the chain arrives. -/
theorem Follows.retarget {next next' : α → α} {a a' c n : α} {l : List α}
    (h : Follows next a l c) (hnodup : l.Nodup)
    (hhead : a' = if l = [] then n else a)
    (hlast : ∀ x, l.getLast? = some x → next' x = n)
    (hrest : ∀ x ∈ l, l.getLast? ≠ some x → next' x = next x) :
    Follows next' a' l n := by
  induction l generalizing a a' with
  | nil => simpa using hhead
  | cons b l ih =>
      refine ⟨by simpa [h.1] using hhead, ?_⟩
      have hb := (List.nodup_cons.mp hnodup).1
      apply ih h.2 (List.nodup_cons.mp hnodup).2
      · cases l with
        | nil => simpa using hlast b (by simp)
        | cons d l =>
            have hne : (b :: d :: l).getLast? ≠ some b := by
              intro heq
              rw [List.getLast?_cons_cons] at heq
              exact hb (List.mem_of_getLast? heq)
            simpa using hrest b (by simp) hne
      · intro x hx
        cases l with
        | nil => simp at hx
        | cons d l => exact hlast x (by rw [List.getLast?_cons_cons]; exact hx)
      · intro x hx hne
        cases l with
        | nil => simp at hx
        | cons d l =>
            exact hrest x (List.mem_cons_of_mem _ hx) (by rwa [List.getLast?_cons_cons])

/-- Exchanging one node of a chain for another. -/
theorem Follows.exchange {next next' : α → α} {a a' x y stop : α} {l₁ l₂ : List α}
    (h : Follows next a (l₁ ++ x :: l₂) stop) (hnodup : l₁.Nodup)
    (hhead : a' = if l₁ = [] then y else a)
    (hlast : ∀ z, l₁.getLast? = some z → next' z = y)
    (hrest : ∀ z ∈ l₁, l₁.getLast? ≠ some z → next' z = next z)
    (hy : next' y = next x) (hafter : ∀ z ∈ l₂, next' z = next z) :
    Follows next' a' (l₁ ++ y :: l₂) stop := by
  obtain ⟨h₁, h₂⟩ := follows_append_cons.mp h
  apply follows_append_cons.mpr
  constructor
  · exact h₁.retarget hnodup hhead hlast hrest
  · rw [hy]
    exact h₂.congr hafter

/-- Leading past one node of a chain. -/
theorem Follows.unlink {next next' : α → α} {a a' x stop : α} {l₁ l₂ : List α}
    (h : Follows next a (l₁ ++ x :: l₂) stop) (hnodup : l₁.Nodup)
    (hhead : a' = if l₁ = [] then next x else a)
    (hlast : ∀ z, l₁.getLast? = some z → next' z = next x)
    (hrest : ∀ z ∈ l₁, l₁.getLast? ≠ some z → next' z = next z)
    (hafter : ∀ z ∈ l₂, next' z = next z) : Follows next' a' (l₁ ++ l₂) stop := by
  obtain ⟨h₁, h₂⟩ := follows_append_cons.mp h
  apply follows_append.mpr
  exact ⟨next x, h₁.retarget hnodup hhead hlast hrest, h₂.congr hafter⟩

/-- A chain starts at one of its nodes or is at its end. -/
theorem Follows.start_mem {next : α → α} {a stop : α} {l : List α}
    (h : Follows next a l stop) : a = stop ∨ a ∈ l := by
  cases l with
  | nil => exact .inl h
  | cons b l => exact .inr (by simp [h.1])

/-- The node a chain's last node points to. -/
theorem Follows.next_getLast {next : α → α} {a stop x : α} {l : List α}
    (h : Follows next a l stop) (hx : l.getLast? = some x) : next x = stop := by
  obtain ⟨l₁, rfl⟩ := List.getLast?_eq_some_iff.mp hx
  exact (follows_append_cons.mp h).2

/-- The pointer a nonempty chain starts from is its first node. -/
theorem Follows.head_eq {next : α → α} {a stop : α} {l : List α}
    (h : Follows next a l stop) (hl : l ≠ []) : l.head? = some a := by
  cases l with
  | nil => exact absurd rfl hl
  | cons b l => simp [h.1]

theorem Follows.eq_head?_getD {next : α → α} {a stop : α} {l : List α}
    (h : Follows next a l stop) : a = l.head?.getD stop := by
  cases l with
  | nil => exact h
  | cons b l => exact h.1

/-- Each chain from `a` of a given length is the same one. -/
theorem Follows.unique {next : α → α} {a stop stop' : α} {l l' : List α}
    (h : Follows next a l stop) (h' : Follows next a l' stop')
    (hlen : l.length = l'.length) : l = l' ∧ stop = stop' := by
  induction l generalizing a l' with
  | nil =>
      cases l' with
      | nil => exact ⟨rfl, h.symm.trans h'⟩
      | cons b l' => simp at hlen
  | cons b l ih =>
      cases l' with
      | nil => simp at hlen
      | cons b' l' =>
          obtain ⟨rfl, h⟩ := h
          obtain ⟨rfl, h'⟩ := h'
          obtain ⟨rfl, rfl⟩ := ih h h' (by simpa using hlen)
          exact ⟨rfl, rfl⟩

/-- A chain through the node `x` splits there. -/
theorem Follows.split_mem {next : α → α} {a stop x : α} {l : List α}
    (h : Follows next a l stop) (hx : x ∈ l) :
    ∃ l₁ l₂, l = l₁ ++ x :: l₂ ∧ Follows next a l₁ x ∧ Follows next (next x) l₂ stop := by
  obtain ⟨l₁, l₂, rfl⟩ := List.append_of_mem hx
  obtain ⟨h₁, h₂⟩ := follows_append_cons.mp h
  exact ⟨l₁, l₂, rfl, h₁, h₂⟩

/-- A node whose link is not the end of the chain is followed by the node it links to. -/
theorem Follows.split_next {next : α → α} {a stop x : α} {l : List α}
    (h : Follows next a l stop) (hx : x ∈ l) (hstop : next x ≠ stop) :
    ∃ l₁ l₂, l = l₁ ++ x :: next x :: l₂ := by
  obtain ⟨l₁, l₂, rfl, -, h₂⟩ := h.split_mem hx
  cases l₂ with
  | nil => exact absurd h₂ hstop
  | cons b l₂ => exact ⟨l₁, l₂, by rw [h₂.1]⟩

/-- Only the node before `c` on a chain links to `c`. -/
theorem Follows.getLast?_eq {next : α → α} {a c x stop : α} {l₁ l₂ : List α}
    (h : Follows next a (l₁ ++ c :: l₂) stop) (hnodup : (l₁ ++ c :: l₂).Nodup)
    (hx : x ∈ l₁ ++ c :: l₂) (hnext : next x = c) (hc : c ≠ stop) :
    l₁.getLast? = some x := by
  induction l₁ generalizing a with
  | nil =>
      obtain ⟨l, l', heq⟩ := h.split_next hx (hnext ▸ hc)
      rw [List.nil_append] at heq hnodup
      rw [heq, hnext] at hnodup
      cases l with
      | nil =>
          obtain ⟨rfl, -⟩ := List.cons.inj heq
          simp at hnodup
      | cons b l =>
          obtain ⟨rfl, -⟩ := List.cons.inj heq
          simp at hnodup
  | cons b l ih =>
      obtain ⟨rfl, h⟩ := h
      rw [List.cons_append, List.nodup_cons] at hnodup
      by_cases hxa : x = a
      · subst hxa
        rw [hnext] at h
        cases l with
        | nil => rfl
        | cons d l =>
            have hd : c = d := h.1
            exact absurd hnodup.2 (by simp [hd])
      · have hx : x ∈ l ++ c :: l₂ := (List.mem_cons.mp hx).resolve_left hxa
        rw [List.getLast?_cons, ih h hnodup.2 hx]
        rfl

/-- The nodes seen by a loop that starts at `a` and follows `next` up to a null link. -/
inductive Visits (next : α → α) (null : α) : α → α → Prop
  | refl (a : α) : Visits next null a a
  | next {a x : α} (h : Visits next null a x) (hx : next x ≠ null) :
      Visits next null a (next x)

theorem Visits.head {next : α → α} {null a x : α} (ha : next a ≠ null)
    (h : Visits next null (next a) x) : Visits next null a x := by
  induction h with
  | refl => exact .next (.refl a) ha
  | next _ hx ih => exact .next ih hx

/-- A loop along a chain sees the nodes of the chain. -/
theorem Follows.visits_iff {next : α → α} {null a x : α} {l : List α}
    (h : Follows next a l null) (hl : l ≠ []) (hnull : null ∉ l.tail) :
    Visits next null a x ↔ x ∈ l := by
  constructor
  · intro hv
    induction hv with
    | refl => exact List.mem_of_mem_head? (h.head_eq hl)
    | next _ hx ih =>
        obtain ⟨l₁, l₂, rfl⟩ := h.split_next ih hx
        simp
  · intro hx
    induction l generalizing a with
    | nil => exact absurd rfl hl
    | cons b l ih =>
        obtain ⟨rfl, h⟩ := h
        rcases List.mem_cons.mp hx with rfl | hx
        · exact .refl _
        · have hne : l ≠ [] := List.ne_nil_of_mem hx
          have hmem : next a ∈ l := List.mem_of_mem_head? (h.head_eq hne)
          apply Visits.head
          · exact fun h0 => hnull (h0 ▸ hmem)
          · exact ih h hne (fun h0 => hnull (List.mem_of_mem_tail h0)) hx

/-- `prev` leads from each node of `l` to the node before it, from the first to `p`. -/
def Mirrors (prev : α → α) : α → List α → Prop
  | _, [] => True
  | p, b :: l => prev b = p ∧ Mirrors prev b l

@[simp] theorem mirrors_nil {prev : α → α} {p : α} : Mirrors prev p [] := trivial

@[simp] theorem mirrors_cons {prev : α → α} {p b : α} {l : List α} :
    Mirrors prev p (b :: l) ↔ prev b = p ∧ Mirrors prev b l := Iff.rfl

theorem mirrors_append {prev : α → α} {p : α} {l₁ l₂ : List α} :
    Mirrors prev p (l₁ ++ l₂) ↔
      Mirrors prev p l₁ ∧ Mirrors prev (l₁.getLast?.getD p) l₂ := by
  induction l₁ generalizing p with
  | nil => simp
  | cons b l ih =>
      rw [List.cons_append, mirrors_cons, ih, mirrors_cons, List.getLast?_cons,
        Option.getD_some, and_assoc]

theorem Mirrors.congr {prev prev' : α → α} {p : α} {l : List α}
    (h : Mirrors prev p l) (heq : ∀ x ∈ l, prev' x = prev x) : Mirrors prev' p l := by
  induction l generalizing p with
  | nil => trivial
  | cons b l ih =>
      exact ⟨(heq b (by simp)).trans h.1, ih h.2 fun x hx => heq x (by simp [hx])⟩

/-- Leading back past one node of a chain. -/
theorem Mirrors.unlink {prev prev' : α → α} {p x : α} {l₁ l₂ : List α}
    (h : Mirrors prev p (l₁ ++ x :: l₂)) (hbefore : ∀ z ∈ l₁, prev' z = prev z)
    (hhead : ∀ z, l₂.head? = some z → prev' z = prev x)
    (hrest : ∀ z ∈ l₂.tail, prev' z = prev z) : Mirrors prev' p (l₁ ++ l₂) := by
  rw [mirrors_append] at h ⊢
  obtain ⟨h₁, hx, h₂⟩ := h
  refine ⟨h₁.congr hbefore, ?_⟩
  cases l₂ with
  | nil => trivial
  | cons y l =>
      exact ⟨(hhead y rfl).trans hx, h₂.2.congr hrest⟩

/-- Mirrored links of a sorted list do not lead below its start. -/
theorem Mirrors.le_prev {prev : Nat → Nat} {p : Nat} {l : List Nat}
    (h : Mirrors prev p l) (hsorted : (p :: l).Pairwise (· < ·)) {x : Nat} (hx : x ∈ l) :
    p ≤ prev x := by
  induction l generalizing p with
  | nil => simp at hx
  | cons b l ih =>
      rw [List.pairwise_cons] at hsorted
      rcases List.mem_cons.mp hx with rfl | hx
      · exact h.1.ge
      · exact (hsorted.1 b (by simp)).le.trans (ih h.2 hsorted.2 hx)

/-- Follow the pointers that `go` yields until it yields none; `none` when `fuel`
pointers did not suffice. -/
def chase (go : α → Option α) : Nat → α → Option α
  | 0, _ => none
  | fuel + 1, a =>
      match go a with
      | some b => chase go fuel b
      | none => some a

theorem chase_succ (go : α → Option α) (fuel : Nat) (a : α) :
    chase go (fuel + 1) a = (match go a with
      | some b => chase go fuel b
      | none => some a) := rfl

/-- Where a chase stops, `go` yields nothing more. -/
theorem go_of_chase {go : α → Option α} {fuel : Nat} {a c : α}
    (h : chase go fuel a = some c) : go c = none := by
  induction fuel generalizing a with
  | zero => simp [chase] at h
  | succ fuel ih =>
      rw [chase_succ] at h
      cases hgo : go a with
      | some b => rw [hgo] at h; exact ih h
      | none => rw [hgo] at h; cases h; exact hgo

/-- What is kept by each pointer followed holds where the chase stops. -/
theorem chase_induct {go : α → Option α} {P : α → Prop}
    (hgo : ∀ a b, P a → go a = some b → P b) {fuel : Nat} {a c : α}
    (ha : P a) (h : chase go fuel a = some c) : P c := by
  induction fuel generalizing a with
  | zero => simp [chase] at h
  | succ fuel ih =>
      rw [chase_succ] at h
      cases hb : go a with
      | some b => rw [hb] at h; exact ih (hgo a b ha hb) h
      | none => rw [hb] at h; cases h; exact ha

/-- A chase does not end in a set that `go` does not lead out of. -/
theorem chase_eq_none {go : α → Option α} {S : α → Prop}
    (h : ∀ a, S a → ∃ b, S b ∧ go a = some b) (fuel : Nat) {a : α} (ha : S a) :
    chase go fuel a = none := by
  induction fuel generalizing a with
  | zero => rfl
  | succ fuel ih =>
      obtain ⟨b, hb, hgo⟩ := h a ha
      rw [chase_succ, hgo]
      exact ih hb

/-- A chase along a chain stops inside it, once the fuel covers the chain and
`go` stops at the last node at the latest. -/
theorem chase_follows {next : α → α} {go : α → Option α} {a stop : α} {l : List α}
    (h : Follows next a l stop) (hl : l ≠ [])
    (hgo : ∀ x y, go x = some y → y = next x)
    (hstop : ∀ x, l.getLast? = some x → go x = none)
    {fuel : Nat} (hfuel : l.length ≤ fuel) :
    ∃ c l₁ l₂, l = l₁ ++ c :: l₂ ∧ chase go fuel a = some c ∧ go c = none ∧
      ∀ x ∈ l₁, go x ≠ none := by
  induction l generalizing a fuel with
  | nil => exact absurd rfl hl
  | cons b l ih =>
      obtain ⟨rfl, h⟩ := h
      cases fuel with
      | zero => simp at hfuel
      | succ fuel =>
          rw [chase_succ]
          cases hb : go a with
          | none => exact ⟨a, [], l, rfl, rfl, hb, by simp⟩
          | some y =>
              cases l with
              | nil => simp [hstop a (by simp)] at hb
              | cons d l =>
                  rw [← hgo a y hb] at h
                  obtain ⟨c, l₁, l₂, heq, hc, hnone, hall⟩ := ih h (by simp)
                    (fun x hx => hstop x (by rwa [List.getLast?_cons_cons]))
                    (by simpa using hfuel)
                  refine ⟨c, a :: l₁, l₂, by rw [heq]; rfl, hc, hnone, ?_⟩
                  intro x hx
                  rcases List.mem_cons.mp hx with rfl | hx
                  · simp [hb]
                  · exact hall x hx

theorem mem_append_cons_of_mem {a x : α} {l₁ l₂ : List α} (h : x ∈ l₁ ++ l₂) :
    x ∈ l₁ ++ a :: l₂ := by
  rcases List.mem_append.mp h with h | h
  · exact List.mem_append_left _ h
  · exact List.mem_append_right _ (List.mem_cons_of_mem _ h)

theorem mem_append_of_ne {a x : α} {l₁ l₂ : List α} (h : x ∈ l₁ ++ a :: l₂) (hne : x ≠ a) :
    x ∈ l₁ ++ l₂ := by
  rcases List.mem_append.mp h with h | h
  · exact List.mem_append_left _ h
  · exact List.mem_append_right _ ((List.mem_cons.mp h).resolve_left hne)

/-- A list of distinct numbers below `N` has at most `N` elements. -/
theorem length_le_of_nodup_of_lt {l : List Nat} {N : Nat} (hn : l.Nodup)
    (hlt : ∀ x ∈ l, x < N) : l.length ≤ N := by
  have hsub : l ⊆ List.range N := fun x hx => List.mem_range.mpr (hlt x hx)
  simpa using (hn.subperm hsub).length_le

end Foundation
