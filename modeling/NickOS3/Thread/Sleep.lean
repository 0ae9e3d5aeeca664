import Mathlib.Data.List.Nodup
import NickOS3.Thread.Steps

/-!
# Sleeping threads

`sleep_tick`, which no tick calls. Its loop goes through `sleeper_list` by index and removes
the sleepers that have expired from it, so that the sleeper behind an expired one moves to the
index that has just been looked at.
-/

namespace NickOS3.Thread

/-- `sleeper` -/
structure Sleeper where
  t : Nat
  tickRemaining : Nat
  deriving DecidableEq

/-- The kernel with `sleeper_list` as a sequence of pointers to sleepers; the kernel's own
sequence has their threads. -/
structure SleepState where
  kernel : Kernel
  sleeperList : List Nat
  sleeper : Nat → Sleeper

namespace SleepState

variable (s : SleepState)

/-! ## `sleep_tick` -/

/-- `s->tick_remaining--` -/
def decrement (p : Nat) : SleepState :=
  let ticks := (s.sleeper p).tickRemaining
  { s with sleeper := Function.update s.sleeper p { s.sleeper p with
      tickRemaining := if ticks = 0 then 4294967295 else ticks - 1 } }

/-- `remove(sleeper_list, s)` -/
def removeSleeper (p : Nat) : SleepState :=
  { s with
    kernel := { s.kernel.record (.remove .sleeperList) with
      sleeperList := s.kernel.sleeperList.erase (s.sleeper p).t }
    sleeperList := s.sleeperList.erase p }

/-- `thread_unblock`, called with interrupts off. -/
def unblock (t : Nat) : SleepState :=
  let k := s.kernel.enter .threadUnblock
  { s with kernel := match k.unblockCheck t with
      | some p => k.stop p
      | none => (k.unblockOff t).leave }

/-- The body of the loop at a sleeper. -/
def tick (p : Nat) : SleepState :=
  let s := s.decrement p
  if (s.sleeper p).tickRemaining = 0 then
    let level := s.kernel.intFlag
    let s := { s with kernel := s.kernel.intDisable }
    let s := s.removeSleeper p
    let s := s.unblock (s.sleeper p).t
    if s.kernel.outcome ≠ .running then s
    else { s with kernel := s.kernel.intSet level }
  else s

/-- `for (i = 0; i < sleeper_list->size; i++)`. The list does not grow, so that as many rounds
are enough as it has elements. -/
def sleepTickLoop : Nat → Nat → SleepState → SleepState
  | 0, _, s => s
  | rounds + 1, i, s =>
      if h : i < s.sleeperList.length then
        let s := s.tick (s.sleeperList.get ⟨i, h⟩)
        if s.kernel.outcome ≠ .running then s else sleepTickLoop rounds (i + 1) s
      else s

def sleepTick : SleepState := sleepTickLoop s.sleeperList.length 0 s

/-! ## What a tick should do -/

/-- The threads of some sleepers. -/
def threadsOf (l : List Nat) : List Nat := l.map fun p => (s.sleeper p).t

/-- The sleepers whose counter becomes 0. -/
def expired (l : List Nat) : List Nat := l.filter fun p => (s.sleeper p).tickRemaining = 1

/-- The sleepers have positive counters, and their threads are blocked and distinct. -/
structure Asleep (l : List Nat) : Prop where
  positive : ∀ p ∈ l, 0 < (s.sleeper p).tickRemaining
  isThread : ∀ p ∈ l, s.kernel.isThread (s.sleeper p).t
  blocked : ∀ p ∈ l, s.kernel.status (s.sleeper p).t = .blocked
  distinct : (s.threadsOf l).Nodup
  running : s.kernel.outcome = .running

/-- Every counter is decremented once; those whose counter becomes 0 are removed and
unblocked, in the order of the list, and the others stay in their order. -/
structure Advances (after : SleepState) : Prop where
  counters : ∀ p ∈ s.sleeperList,
    (after.sleeper p).tickRemaining = (s.sleeper p).tickRemaining - 1
  kept : after.sleeperList = s.sleeperList.filter fun p => (s.sleeper p).tickRemaining ≠ 1
  woken : after.kernel.readyThreads =
    s.kernel.readyThreads ++ s.threadsOf (s.expired s.sleeperList)
  status : ∀ t, after.kernel.status t =
    if t ∈ s.threadsOf (s.expired s.sleeperList) then .ready else s.kernel.status t
  running : after.kernel.outcome = .running

/-! ## The sleepers that are looked at -/

/-- The loop passes over the sleeper behind an expired one. -/
def visited : List Nat → List Nat
  | [] => []
  | [p] => [p]
  | p :: q :: rest =>
      if (s.sleeper p).tickRemaining = 1 then p :: visited rest else p :: visited (q :: rest)

theorem visited_subset (l : List Nat) : ∀ p ∈ s.visited l, p ∈ l := by
  induction l using visited.induct s with
  | case1 => exact fun _ hp => hp
  | case2 p => exact fun _ hp => hp
  | case3 p q rest hone ih =>
      intro r hr
      rw [visited, if_pos hone] at hr
      rcases List.mem_cons.mp hr with rfl | hr
      · exact List.mem_cons_self
      · exact List.mem_cons_of_mem _ (List.mem_cons_of_mem _ (ih r hr))
  | case4 p q rest hone ih =>
      intro r hr
      rw [visited, if_neg hone] at hr
      rcases List.mem_cons.mp hr with rfl | hr
      · exact List.mem_cons_self
      · exact List.mem_cons_of_mem _ (ih r hr)

/-- Where every sleeper is looked at, none but the last one expires. -/
theorem waits_of_visited_all {l : List Nat} (hl : l.Nodup) (h : ∀ p ∈ l, p ∈ s.visited l) :
    ∀ p ∈ l.dropLast, (s.sleeper p).tickRemaining ≠ 1 := by
  induction l using visited.induct s with
  | case1 => exact fun _ hp => absurd hp List.not_mem_nil
  | case2 p => exact fun _ hp => absurd hp List.not_mem_nil
  | case3 p q rest hone ih =>
      have hq := h q (List.mem_cons_of_mem _ List.mem_cons_self)
      rw [visited, if_pos hone] at hq
      rcases List.mem_cons.mp hq with hq | hq
      · exact absurd (hq ▸ List.mem_cons_self) (List.nodup_cons.mp hl).1
      · exact absurd (s.visited_subset rest q hq)
          (List.nodup_cons.mp (List.nodup_cons.mp hl).2).1
  | case4 p q rest hone ih =>
      have hp := (List.nodup_cons.mp hl).1
      have hrest := ih (List.nodup_cons.mp hl).2 fun r hr => by
        have hmem := h r (List.mem_cons_of_mem _ hr)
        rw [visited, if_neg hone] at hmem
        rcases List.mem_cons.mp hmem with rfl | hmem
        · exact absurd hr hp
        · exact hmem
      rw [List.dropLast_cons_of_ne_nil (List.cons_ne_nil q rest)]
      intro r hr
      rcases List.mem_cons.mp hr with rfl | hr
      · exact hone
      · exact hrest r hr

theorem visited_eq {l : List Nat} (h : ∀ p ∈ l.dropLast, (s.sleeper p).tickRemaining ≠ 1) :
    s.visited l = l := by
  induction l using visited.induct s with
  | case1 => rfl
  | case2 p => rfl
  | case3 p q rest hone ih => exact absurd hone (h p List.mem_cons_self)
  | case4 p q rest hone ih =>
      rw [List.dropLast_cons_of_ne_nil (List.cons_ne_nil q rest)] at h
      rw [visited, if_neg hone, ih fun r hr => h r (List.mem_cons_of_mem _ hr)]

/-! ## What the loop does -/

/-- Some sleepers have been looked at. -/
structure Ticked (vs : List Nat) (after : SleepState) : Prop where
  sleeper : ∀ p, after.sleeper p = if p ∈ vs then
    { s.sleeper p with tickRemaining := (s.sleeper p).tickRemaining - 1 } else s.sleeper p
  list : after.sleeperList =
    s.sleeperList.filter fun p => ¬ (p ∈ vs ∧ (s.sleeper p).tickRemaining = 1)
  ready : after.kernel.readyThreads = s.kernel.readyThreads ++ s.threadsOf (s.expired vs)
  status : ∀ t, after.kernel.status t =
    if t ∈ s.threadsOf (s.expired vs) then .ready else s.kernel.status t
  numThreads : after.kernel.numThreads = s.kernel.numThreads
  running : after.kernel.outcome = .running

variable {s}

theorem Ticked.refl (h : s.kernel.outcome = .running) : s.Ticked [] s := by
  refine ⟨fun _ => rfl, ?_, (List.append_nil _).symm, fun _ => rfl, rfl, h⟩
  symm
  apply List.filter_eq_self.mpr
  intro p _
  simp

theorem Ticked.threadsOf {vs : List Nat} {after : SleepState} (h : s.Ticked vs after)
    (l : List Nat) : after.threadsOf l = s.threadsOf l := by
  apply List.map_congr_left
  intro p _
  rw [h.sleeper]
  split <;> rfl

theorem Ticked.expired {vs ws : List Nat} {after : SleepState} (h : s.Ticked vs after)
    (hws : ∀ p ∈ ws, p ∉ vs) : after.expired ws = s.expired ws := by
  apply List.filter_congr
  intro p hp
  rw [h.sleeper, if_neg (hws p hp)]

theorem Ticked.trans {vs ws : List Nat} {mid after : SleepState} (h : s.Ticked vs mid)
    (h' : mid.Ticked ws after) (hws : ∀ p ∈ ws, p ∉ vs) : s.Ticked (vs ++ ws) after := by
  have hexpired : s.expired (vs ++ ws) = s.expired vs ++ mid.expired ws := by
    rw [h.expired hws]
    exact List.filter_append ..
  have hthreads : s.threadsOf (s.expired (vs ++ ws)) =
      s.threadsOf (s.expired vs) ++ mid.threadsOf (mid.expired ws) := by
    rw [hexpired, h.threadsOf]
    exact List.map_append
  constructor
  · intro p
    rw [h'.sleeper, h.sleeper]
    by_cases hw : p ∈ ws
    · rw [if_pos hw, if_neg (hws p hw), if_pos (List.mem_append_right _ hw)]
    · rw [if_neg hw]
      by_cases hv : p ∈ vs
      · rw [if_pos hv, if_pos (List.mem_append_left _ hv)]
      · rw [if_neg hv, if_neg fun hp => (List.mem_append.mp hp).elim hv hw]
  · rw [h'.list, h.list, List.filter_filter]
    apply List.filter_congr
    intro p _
    rw [h.sleeper]
    by_cases hw : p ∈ ws
    · simp [hw, hws p hw]
    · simp [hw]
  · rw [h'.ready, h.ready, hthreads, List.append_assoc]
  · intro t
    rw [h'.status, h.status, hthreads]
    by_cases hw : t ∈ mid.threadsOf (mid.expired ws)
    · rw [if_pos hw, if_pos (List.mem_append_right _ hw)]
    · rw [if_neg hw]
      by_cases hv : t ∈ s.threadsOf (s.expired vs)
      · rw [if_pos hv, if_pos (List.mem_append_left _ hv)]
      · rw [if_neg hv, if_neg fun ht => (List.mem_append.mp ht).elim hv hw]
  · exact h'.numThreads.trans h.numThreads
  · exact h'.running

theorem Ticked.visited {vs : List Nat} {after : SleepState} (h : s.Ticked vs after)
    (l : List Nat) (hl : ∀ p ∈ l, p ∉ vs) : after.visited l = s.visited l := by
  induction l using visited.induct s with
  | case1 => rfl
  | case2 p => rfl
  | case3 p q rest hone ih =>
      have hp : after.sleeper p = s.sleeper p := by rw [h.sleeper, if_neg (hl p List.mem_cons_self)]
      rw [SleepState.visited, SleepState.visited, hp, if_pos hone, if_pos hone,
        ih fun r hr => hl r (List.mem_cons_of_mem _ (List.mem_cons_of_mem _ hr))]
  | case4 p q rest hone ih =>
      have hp : after.sleeper p = s.sleeper p := by rw [h.sleeper, if_neg (hl p List.mem_cons_self)]
      rw [SleepState.visited, SleepState.visited, hp, if_neg hone, if_neg hone,
        ih fun r hr => hl r (List.mem_cons_of_mem _ hr)]

theorem threadsOf_notMem {p : Nat} {rest : List Nat} (h : (s.threadsOf (p :: rest)).Nodup) :
    (s.sleeper p).t ∉ s.threadsOf rest := (List.nodup_cons.mp h).1

/-- The sleepers behind the one that was looked at are as before. -/
theorem Ticked.asleep {p : Nat} {rest : List Nat} {after : SleepState}
    (h : s.Ticked [p] after) (hs : s.Asleep (p :: rest)) : after.Asleep rest := by
  have hmem (q : Nat) (hq : q ∈ rest) : q ∈ p :: rest := List.mem_cons_of_mem _ hq
  have hthread (q : Nat) (hq : q ∈ rest) : (s.sleeper q).t ≠ (s.sleeper p).t := by
    intro heq
    have hnot := threadsOf_notMem hs.distinct
    rw [← heq] at hnot
    exact hnot (List.mem_map_of_mem hq)
  have hsame (q : Nat) (hq : q ∈ rest) : after.sleeper q = s.sleeper q := by
    rw [h.sleeper, if_neg]
    intro hp
    exact hthread q hq (congrArg (fun r => (s.sleeper r).t) (List.mem_singleton.mp hp))
  refine ⟨?_, ?_, ?_, ?_, h.running⟩
  · intro q hq
    rw [hsame q hq]
    exact hs.positive q (hmem q hq)
  · intro q hq
    rw [hsame q hq, Kernel.isThread, h.numThreads]
    exact hs.isThread q (hmem q hq)
  · intro q hq
    rw [hsame q hq, h.status, if_neg]
    · exact hs.blocked q (hmem q hq)
    · intro ht
      obtain ⟨r, hr, heq⟩ := List.mem_map.mp ht
      have hrp : r = p := List.mem_singleton.mp (List.mem_filter.mp hr).1
      exact hthread q hq (hrp ▸ heq).symm
  · rw [h.threadsOf]
    exact (List.nodup_cons.mp hs.distinct).2

/-! ## One sleeper -/

theorem decrement_sleeper {p : Nat} (hpos : 0 < (s.sleeper p).tickRemaining) (q : Nat) :
    (s.decrement p).sleeper q = if q ∈ [p] then
      { s.sleeper q with tickRemaining := (s.sleeper q).tickRemaining - 1 } else s.sleeper q := by
  rw [decrement]
  dsimp only
  by_cases hq : q = p
  · subst hq
    rw [Function.update_self, if_pos List.mem_cons_self, if_neg (Nat.ne_of_gt hpos)]
  · rw [Function.update_of_ne hq, if_neg fun h => hq (List.mem_singleton.mp h)]

theorem decrement_ticks {p : Nat} (hpos : 0 < (s.sleeper p).tickRemaining) :
    ((s.decrement p).sleeper p).tickRemaining = (s.sleeper p).tickRemaining - 1 := by
  rw [decrement_sleeper hpos, if_pos List.mem_cons_self]

theorem filter_of_waits {p : Nat} (hone : (s.sleeper p).tickRemaining ≠ 1) (l : List Nat) :
    (l.filter fun q => ¬ (q ∈ [p] ∧ (s.sleeper q).tickRemaining = 1)) = l := by
  apply List.filter_eq_self.mpr
  intro q _
  by_cases hq : q = p
  · subst hq
    simp [hone]
  · simp [hq]

theorem filter_of_expires {p : Nat} (hone : (s.sleeper p).tickRemaining = 1) {l : List Nat}
    (hl : l.Nodup) :
    (l.filter fun q => ¬ (q ∈ [p] ∧ (s.sleeper q).tickRemaining = 1)) = l.erase p := by
  rw [hl.erase_eq_filter]
  apply List.filter_congr
  intro q _
  by_cases hq : q = p
  · subst hq
    simp [hone]
  · simp [hq]

/-- The body of the loop at a sleeper that goes on sleeping. -/
theorem Ticked.waits {p : Nat} (hpos : 0 < (s.sleeper p).tickRemaining)
    (hone : (s.sleeper p).tickRemaining ≠ 1) (hrunning : s.kernel.outcome = .running) :
    s.Ticked [p] (s.tick p) := by
  have hticks : ((s.decrement p).sleeper p).tickRemaining ≠ 0 := by
    rw [decrement_ticks hpos]
    omega
  have htick : s.tick p = s.decrement p := if_neg hticks
  have hexpired : s.expired [p] = [] := by
    simp [SleepState.expired, hone]
  rw [htick]
  refine ⟨decrement_sleeper hpos, (filter_of_waits hone _).symm, ?_, ?_, rfl, hrunning⟩
  · rw [hexpired]
    exact (List.append_nil _).symm
  · intro t
    rw [hexpired]
    rfl

/-- `thread_unblock` of a thread that is blocked. -/
theorem unblock_kernel {t : Nat} (hthread : s.kernel.isThread t)
    (hblocked : s.kernel.status t = .blocked) :
    (s.unblock t).kernel = ((s.kernel.enter .threadUnblock).unblockOff t).leave := by
  have hcheck : (s.kernel.enter .threadUnblock).unblockCheck t = none :=
    (if_neg (not_not.mpr hthread)).trans (if_neg (not_not.mpr hblocked))
  rw [unblock]
  dsimp only
  rw [hcheck]

/-- The kernel where the thread of an expired sleeper is unblocked. -/
def offList (p : Nat) : SleepState :=
  { s.decrement p with kernel := s.kernel.intDisable }.removeSleeper p

/-- The body of the loop at a sleeper that expires. -/
theorem Ticked.expires {p : Nat} (hone : (s.sleeper p).tickRemaining = 1)
    (hlist : s.sleeperList.Nodup) (hthread : s.kernel.isThread (s.sleeper p).t)
    (hblocked : s.kernel.status (s.sleeper p).t = .blocked)
    (hrunning : s.kernel.outcome = .running) : s.Ticked [p] (s.tick p) := by
  have hpos : 0 < (s.sleeper p).tickRemaining := by omega
  have hticks : ((s.decrement p).sleeper p).tickRemaining = 0 := by
    rw [decrement_ticks hpos, hone]
  have ht : ((s.decrement p).sleeper p).t = (s.sleeper p).t := by
    rw [decrement_sleeper hpos, if_pos List.mem_cons_self]
  have hexpired : s.expired [p] = [p] := by
    simp [SleepState.expired, hone]
  have hthreads : s.threadsOf [p] = [(s.sleeper p).t] := rfl
  have hkernel : ((s.offList p).unblock (s.sleeper p).t).kernel =
      (((s.offList p).kernel.enter .threadUnblock).unblockOff (s.sleeper p).t).leave :=
    unblock_kernel hthread hblocked
  have hout : ((s.offList p).unblock (s.sleeper p).t).kernel.outcome = .running := by
    rw [hkernel]
    exact hrunning
  have htick : s.tick p = { (s.offList p).unblock (s.sleeper p).t with
      kernel := ((s.offList p).unblock (s.sleeper p).t).kernel.intSet s.kernel.intFlag } := by
    rw [← ht] at hout ⊢
    rw [tick]
    exact (if_pos hticks).trans (if_neg (not_not.mpr hout))
  rw [htick]
  refine ⟨decrement_sleeper hpos, ?_, ?_, ?_, ?_, hout⟩
  · exact (filter_of_expires hone hlist).symm
  · rw [hexpired]
    dsimp only
    rw [hkernel]
    rfl
  · intro t
    rw [hexpired, hthreads]
    dsimp only
    rw [hkernel]
    by_cases heq : t = (s.sleeper p).t
    · subst heq
      rw [if_pos (List.mem_singleton_self _)]
      exact Function.update_self _ _ _
    · rw [if_neg fun h => heq (List.mem_singleton.mp h)]
      exact Function.update_of_ne heq _ _
  · dsimp only
    rw [hkernel]
    rfl

theorem Ticked.tick {p : Nat} {rest : List Nat} (hs : s.Asleep (p :: rest))
    (hlist : s.sleeperList.Nodup) : s.Ticked [p] (s.tick p) := by
  have hmem : p ∈ p :: rest := List.mem_cons_self
  by_cases hone : (s.sleeper p).tickRemaining = 1
  · exact .expires hone hlist (hs.isThread p hmem) (hs.blocked p hmem) hs.running
  · exact .waits (hs.positive p hmem) hone hs.running

/-! ## The loop -/

theorem sleepTickLoop_of_length_le {rounds i : Nat} (h : s.sleeperList.length ≤ i) :
    s.sleepTickLoop rounds i = s := by
  cases rounds with
  | zero => rfl
  | succ rounds => rw [sleepTickLoop, dif_neg (Nat.not_lt.mpr h)]

/-- The loop goes on behind the sleepers that it has passed. -/
theorem sleepTickLoop_cons {rounds : Nat} {done rest : List Nat} {p : Nat}
    (hlist : s.sleeperList = done ++ p :: rest) (h : (s.tick p).kernel.outcome = .running) :
    s.sleepTickLoop (rounds + 1) done.length =
      (s.tick p).sleepTickLoop rounds (done.length + 1) := by
  have hlt : done.length < s.sleeperList.length := by
    rw [hlist, List.length_append, List.length_cons]
    omega
  have hget : s.sleeperList.get ⟨done.length, hlt⟩ = p := by
    simp [hlist]
  rw [sleepTickLoop, dif_pos hlt, hget]
  exact if_neg (not_not.mpr h)

theorem Asleep.tail {p : Nat} {rest : List Nat} (h : s.Asleep (p :: rest)) : s.Asleep rest where
  positive q hq := h.positive q (List.mem_cons_of_mem _ hq)
  isThread q hq := h.isThread q (List.mem_cons_of_mem _ hq)
  blocked q hq := h.blocked q (List.mem_cons_of_mem _ hq)
  distinct := (List.nodup_cons.mp h.distinct).2
  running := h.running

theorem visited_of_waits {p : Nat} (hone : (s.sleeper p).tickRemaining ≠ 1) (rest : List Nat) :
    s.visited (p :: rest) = p :: s.visited rest := by
  cases rest with
  | nil => rfl
  | cons q rest => rw [SleepState.visited, if_neg hone]

theorem Ticked.loop (rounds : Nat) : ∀ (rest done : List Nat) (s : SleepState),
    s.sleeperList = done ++ rest → s.sleeperList.Nodup → rest.length ≤ rounds →
    s.Asleep rest → s.Ticked (s.visited rest) (s.sleepTickLoop rounds done.length) := by
  induction rounds with
  | zero =>
      intro rest done s hlist hnodup hrounds hs
      obtain rfl := List.length_eq_zero_iff.mp (Nat.le_zero.mp hrounds)
      exact .refl hs.running
  | succ rounds ih =>
      intro rest done s hlist hnodup hrounds hs
      cases rest with
      | nil =>
          have hend : s.sleeperList.length ≤ done.length :=
            Nat.le_of_eq (by rw [hlist, List.append_nil])
          rw [sleepTickLoop_of_length_le hend]
          exact .refl hs.running
      | cons p rest =>
          have htick : s.Ticked [p] (s.tick p) := .tick hs hnodup
          have hafter := htick.asleep hs
          have hp : p ∉ rest := fun hp => threadsOf_notMem hs.distinct (List.mem_map_of_mem hp)
          have hnot (q : Nat) (hq : q ∈ rest) : q ∉ [p] := fun h =>
            hp (List.mem_singleton.mp h ▸ hq)
          have hsublist : (s.tick p).sleeperList.Nodup := by
            rw [htick.list]
            exact hnodup.filter _
          rw [sleepTickLoop_cons hlist htick.running]
          by_cases hone : (s.sleeper p).tickRemaining = 1
          · -- the sleeper behind `p` has moved to its index
            have hdone : p ∉ done := by
              rw [hlist] at hnodup
              exact fun hp => (List.nodup_append.mp hnodup).2.2 p hp p List.mem_cons_self rfl
            have hshort : (s.tick p).sleeperList = done ++ rest := by
              rw [htick.list, filter_of_expires hone hnodup, hlist,
                List.erase_append_right _ hdone, List.erase_cons_head]
            cases rest with
            | nil =>
                have hend : (s.tick p).sleeperList.length ≤ done.length + 1 := by
                  rw [hshort, List.append_nil]
                  exact Nat.le_succ _
                rw [sleepTickLoop_of_length_le hend]
                exact htick
            | cons q rest =>
                have hlist' : (s.tick p).sleeperList = (done ++ [q]) ++ rest := by
                  rw [hshort, List.append_assoc]
                  rfl
                have hlength : rest.length ≤ rounds := by
                  rw [List.length_cons, List.length_cons] at hrounds
                  omega
                have hnot' (r : Nat) (hr : r ∈ rest) : r ∉ [p] :=
                  hnot r (List.mem_cons_of_mem _ hr)
                have hrest := ih rest (done ++ [q]) (s.tick p) hlist' hsublist hlength hafter.tail
                have hvisited : s.visited (p :: q :: rest) = [p] ++ s.visited rest := by
                  rw [SleepState.visited, if_pos hone]
                  rfl
                rw [List.length_append, List.length_singleton, htick.visited rest hnot'] at hrest
                rw [hvisited]
                exact htick.trans hrest fun r hr => hnot' r (s.visited_subset rest r hr)
          · have hsame : (s.tick p).sleeperList = (done ++ [p]) ++ rest := by
              rw [htick.list, filter_of_waits hone, hlist, List.append_assoc]
              rfl
            have hrest := ih rest (done ++ [p]) (s.tick p) hsame hsublist
              (Nat.le_of_succ_le_succ hrounds) hafter
            rw [List.length_append, List.length_singleton, htick.visited rest hnot] at hrest
            rw [visited_of_waits hone]
            exact htick.trans hrest fun q hq => hnot q (s.visited_subset rest q hq)

/-! ## `sleep_tick` -/

theorem Ticked.sleepTick (hs : s.Asleep s.sleeperList) (hlist : s.sleeperList.Nodup) :
    s.Ticked (s.visited s.sleeperList) s.sleepTick :=
  .loop s.sleeperList.length s.sleeperList [] s rfl hlist (Nat.le_refl _) hs

/-- The sleepers are distinct, since their threads are. -/
theorem Asleep.nodup {l : List Nat} (h : s.Asleep l) : l.Nodup :=
  List.Nodup.of_map _ h.distinct

/-- One call of `sleep_tick` advances every sleeper once if and only if no sleeper but the last
one expires. -/
theorem sleep_tick_advances_iff (hs : s.Asleep s.sleeperList) :
    s.Advances s.sleepTick ↔
      ∀ p ∈ s.sleeperList.dropLast, (s.sleeper p).tickRemaining ≠ 1 := by
  have h : s.Ticked (s.visited s.sleeperList) s.sleepTick := .sleepTick hs hs.nodup
  constructor
  · intro hadvances
    apply s.waits_of_visited_all hs.nodup
    intro p hp
    by_contra hnot
    have hcounter := hadvances.counters p hp
    have hpos := hs.positive p hp
    rw [h.sleeper, if_neg hnot] at hcounter
    omega
  · intro hwaits
    rw [s.visited_eq hwaits] at h
    refine ⟨?_, ?_, h.ready, h.status, h.running⟩
    · intro p hp
      rw [h.sleeper, if_pos hp]
    · rw [h.list]
      apply List.filter_congr
      intro p hp
      simp [hp]

end SleepState

/-! ## Two sleepers -/

/-- The threads 3 and 4 sleep for so many ticks. -/
def twoSleepers (first second : Nat) : SleepState where
  kernel := { startKernel with
    numThreads := 4
    allThreads := [1, 2, 3, 4]
    status := fun t => if t = 1 then .running else if t = 2 then .ready else .blocked
    sleeperList := [3, 4] }
  sleeperList := [4096, 8192]
  sleeper p := if p = 4096 then ⟨3, first⟩ else ⟨4, second⟩

theorem asleep_twoSleepers {first second : Nat} (hfirst : 0 < first) (hsecond : 0 < second) :
    (twoSleepers first second).Asleep (twoSleepers first second).sleeperList := by
  have hmem {p : Nat} (hp : p ∈ (twoSleepers first second).sleeperList) :
      p = 4096 ∨ p = 8192 := by
    simpa [twoSleepers] using hp
  have hdistinct : (twoSleepers first second).threadsOf
      (twoSleepers first second).sleeperList = [3, 4] := rfl
  refine ⟨?_, ?_, ?_, hdistinct ▸ by decide, rfl⟩
  · intro p hp
    rcases hmem hp with rfl | rfl
    · exact hfirst
    · exact hsecond
  · intro p hp
    rcases hmem hp with rfl | rfl <;> rfl
  · intro p hp
    rcases hmem hp with rfl | rfl <;> rfl

/-- The first sleeper has a tick left, and the second one expires. -/
theorem sleep_tick_advances_two :
    (twoSleepers 2 1).Advances (twoSleepers 2 1).sleepTick :=
  (SleepState.sleep_tick_advances_iff
    (asleep_twoSleepers (by decide) (by decide))).mpr (by decide)

/-- The first sleeper expires, and the counter of the second one stays 2. -/
theorem sleep_tick_skips_a_sleeper :
    ¬ ∀ s : SleepState, s.Asleep s.sleeperList → s.Advances s.sleepTick := by
  intro h
  have hs := h (twoSleepers 1 2) (asleep_twoSleepers (by decide) (by decide))
  have hcounter := hs.counters 8192 (by decide)
  have hstays : ((twoSleepers 1 2).sleepTick.sleeper 8192).tickRemaining = 2 := by decide
  rw [hstays] at hcounter
  exact absurd hcounter (by decide)

end NickOS3.Thread
