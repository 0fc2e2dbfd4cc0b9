import Mathlib
import AlgebraicReals.Proofs.IsolatedRoot.Order

set_option autoImplicit false

/-! # The loops behind the queries

A query is one search with one test. As loops, the queries take a finer course, which is
written out here and shown to come to the same.

* Membership and the order with a rational number look once, before they bisect, whether
  a number that stands in the way is the root, and then refine without looking again
  (`containedInOnce`, `compareValueOnce`). The search repeats the look after every
  bisection. But what it looks for is whether that number *is* the root
  (`Isolates.contains_and_isRoot_iff`), which no bisection changes.
* A comparison bisects two roots in turn until one of them is known exactly, and then hands
  over to the order of the other one with that value, with the rest of its cap and with its
  own bisections counted in (`compareFrom`). The search goes on with one counter, and with
  one side of it at rest (`Contest.search_of_left_exact`, `Contest.search_of_right_exact`). -/

namespace AlgebraicReals

namespace IsolatedRoot

/-! ## Looking once -/

/-- The order with `v` after a refinement that has met the value or left `v` outside. -/
def orderAfter (v : Rat) (how : Refinement) (r : IsolatedRoot) : Ordering :=
  match how, r.value? with
  | .collapsed, some x => Rational.order x v
  | _, _ => if v ≤ r.interval.lower.value then .gt else .lt

/-- The order with a rational number, which is looked at once: either it is the root, or
the interval is refined until it is outside. -/
def compareValueOnce (v : Rat) (cap : Nat) (r : IsolatedRoot) : Outcome IsolatedRoot Ordering :=
  match r.location with
  | .exact x => .now (Rational.order x v) r
  | .between l u =>
    if (Interval.between l u).contains v && r.chain.isRoot v then .now .eq (r.collapse v)
    else (r.refineUntil (fun I => !I.contains v) cap).readOff (orderAfter v)

/-- Membership after a refinement that has met the value or decided for the interval. -/
def memberAfter (query : Interval) (how : Refinement) (r : IsolatedRoot) : Bool :=
  match how, r.value? with
  | .collapsed, some v => query.contains v
  | _, _ => query.includes r.interval

/-- Membership in an interval whose bounds are looked at once: either one of them is the
root, or the interval is refined until it is inside or outside. -/
def containedInOnce (query : Interval) (cap : Nat) (r : IsolatedRoot) :
    Outcome IsolatedRoot Bool :=
  match r.location with
  | .exact v => .now (query.contains v) r
  | .between l u =>
    if query.isEmpty then .now false r
    else
      match query.bounds.find? (fun e => (Interval.between l u).contains e && r.chain.isRoot e) with
      | some e => .now (query.contains e) (r.collapse e)
      | none =>
        (r.refineUntil (fun I => query.includes I || I.disjoint query) cap).readOff
          (memberAfter query)

section

variable {r : IsolatedRoot} {α : ℝ} (h : r.Isolates α)

include h

/-- A number inside the interval that is found to be a root is the root. -/
theorem Isolates.contains_and_isRoot_iff {l u : Rat} (hloc : r.location = .between l u)
    (e : Rat) :
    ((Interval.between l u).contains e && r.chain.isRoot e) = true ↔ (e : ℝ) = α := by
  rw [Bool.and_eq_true, SturmChain.isRoot_iff h.nonzero]
  constructor
  · rintro ⟨hin, hroot⟩
    obtain ⟨hle, heu⟩ := (Interval.contains_between l u e).mp hin
    exact (h.traps hloc).eq_of_root hroot hle heu
  · intro he
    rw [Interval.contains_iff, he]
    exact ⟨h.mem_between hloc, h.root⟩

theorem compareValue?_eq_refined? {v : Rat} (hv : (v : ℝ) ≠ α) :
    compareValue? v r
      = (refined? (fun I => !I.contains v) r).map fun x => (orderAfter v x.1 x.2, x.2) := by
  cases hloc : r.location with
  | exact x =>
      simp [compareValue?, refined?, orderAfter, isExact, value?, hloc, Location.isExact,
        Location.value?]
  | between l u =>
      have hlook := (h.contains_and_isRoot_iff hloc v).not.mpr hv
      by_cases hin : (Interval.between l u).contains v = true
      · have hroot : r.chain.isRoot v = false := by simpa [hin] using hlook
        simp [compareValue?, refined?, isExact, interval, hloc, Location.isExact,
          Location.interval, hin, hroot]
      · simp [compareValue?, refined?, orderAfter, isExact, interval, hloc, Location.isExact,
          Location.interval, hin]
        rfl

/-- **The order with a rational number needs one look at it.** -/
theorem compareValue_eq_once (v : Rat) (cap : Nat) :
    r.compareValue v cap = r.compareValueOnce v cap := by
  cases hloc : r.location with
  | exact x =>
      simp only [compareValueOnce, hloc]
      refine search_of_answer ?_ cap
      simp only [compareValue?, hloc]
  | between l u =>
      simp only [compareValueOnce, hloc]
      split
      · rename_i hlook
        obtain ⟨hin, hroot⟩ := Bool.and_eq_true _ _ ▸ hlook
        refine search_of_answer ?_ cap
        simp only [compareValue?, hloc, hin, hroot, if_true]
      · rename_i hlook
        rw [h.contains_and_isRoot_iff hloc] at hlook
        exact search_eq_readOff (P := fun s : IsolatedRoot => s.Isolates α)
          (fun _ hs => refine_isolates hs) (fun _ hs => compareValue?_eq_refined? hs hlook) h cap

theorem containedIn?_eq_refined? {query : Interval} (hne : query.isEmpty = false)
    (hbounds : ∀ e ∈ query.bounds, (e : ℝ) ≠ α) :
    containedIn? query r
      = (refined? (fun I => query.includes I || I.disjoint query) r).map
        fun x => (memberAfter query x.1 x.2, x.2) := by
  cases hloc : r.location with
  | exact x =>
      simp [containedIn?, refined?, memberAfter, isExact, value?, hloc, Location.isExact,
        Location.value?]
  | between l u =>
      have hnone : query.bounds.find?
          (fun e => (Interval.between l u).contains e && r.chain.isRoot e) = none := by
        rw [List.find?_eq_none]
        intro e he
        exact (h.contains_and_isRoot_iff hloc e).not.mpr (hbounds e he)
      by_cases hincl : query.includes (.between l u) = true
      · simp [containedIn?, refined?, memberAfter, isExact, interval, hloc, Location.isExact,
          Location.interval, hne, hnone, hincl]
      · by_cases hdisj : (Interval.between l u).disjoint query = true
        · simp [containedIn?, refined?, memberAfter, isExact, interval, hloc, Location.isExact,
            Location.interval, hne, hnone, hincl, hdisj]
        · simp [containedIn?, refined?, isExact, interval, hloc, Location.isExact,
            Location.interval, hne, hnone, hincl, hdisj]

/-- **Membership needs one look at each bound.** -/
theorem containedIn_eq_once (query : Interval) (cap : Nat) :
    r.containedIn query cap = r.containedInOnce query cap := by
  cases hloc : r.location with
  | exact x =>
      simp only [containedInOnce, hloc]
      refine search_of_answer ?_ cap
      simp only [containedIn?, hloc]
  | between l u =>
      simp only [containedInOnce, hloc]
      split
      · rename_i hempty
        refine search_of_answer ?_ cap
        simp only [containedIn?, hloc, hempty, if_true]
      rename_i hempty
      split
      · rename_i e he
        refine search_of_answer ?_ cap
        simp only [containedIn?, hloc, if_neg hempty, he]
      · rename_i hnone
        rw [List.find?_eq_none] at hnone
        have hbounds : ∀ e ∈ query.bounds, (e : ℝ) ≠ α := by
          intro e he
          exact (h.contains_and_isRoot_iff hloc e).not.mp (hnone e he)
        exact search_eq_readOff (P := fun s : IsolatedRoot => s.Isolates α)
          (fun _ hs => refine_isolates hs)
          (fun _ hs => containedIn?_eq_refined? hs (Bool.eq_false_iff.mpr hempty) hbounds) h cap

end

end IsolatedRoot

/-! ## Comparisons with a root that is known exactly -/

theorem Rational.swap_order (x y : Rat) : (order x y).swap = order y x := by
  rcases lt_trichotomy x y with h | rfl | h
  · rw [order_of_lt h, order_of_gt h]
    rfl
  · rw [order_self]
    rfl
  · rw [order_of_gt h, order_of_lt h]
    rfl

theorem IsolatedRoot.compareValue?_of_exact {r : IsolatedRoot} {v : Rat}
    (hloc : r.location = .exact v) (w : Rat) :
    compareValue? w r = some (Rational.order v w, r) := by
  simp only [compareValue?, hloc]

namespace Contest

open IsolatedRoot

section

variable {s : Contest} {v : Rat}

/-- If the right root is known exactly, too, two rationals are compared, the other way
round. -/
theorem decide?_of_left_exact (h : s.left.location = .exact v) :
    s.decide? = (compareValue? v s.right).map
      fun x => (x.1.swap, ⟨s.left, x.2, s.leftNext⟩) := by
  cases hr : s.right.location with
  | exact w =>
      simp only [decide?, h, hr, compareValue?_of_exact h, compareValue?_of_exact hr,
        Option.map_some, Rational.swap_order]
  | between l u => simp only [decide?, h, hr]

theorem decide?_of_right_exact (h : s.right.location = .exact v) :
    s.decide? = (compareValue? v s.left).map fun x => (x.1, ⟨x.2, s.right, s.leftNext⟩) := by
  simp only [decide?, h]

theorem step_of_left_exact (h : s.left.location = .exact v) :
    s.step = ⟨s.left, s.right.refine, !s.leftNext⟩ :=
  if_neg (by simp [isExact, h, Location.isExact])

/-- The left root is bisected in every step, which does nothing once it is known. -/
theorem step_of_right_exact (h : s.right.location = .exact v) :
    s.step = ⟨s.left.refine, s.right, !s.leftNext⟩ := by
  cases hl : s.left.location with
  | exact w => rw [step_of_left_exact hl, refine_of_exact h, refine_of_exact hl]
  | between l u => exact if_pos (by simp [isExact, h, hl, Location.isExact])

section

variable {l u l' u' : Rat} (hl : s.left.location = .between l u)
  (hr : s.right.location = .between l' u')

include hl hr

theorem decide?_of_disjoint (h : (Interval.between l u).disjoint (.between l' u') = true) :
    s.decide? = some (Rational.order l l', s) := by
  simp only [decide?, hl, hr, if_pos h]

theorem decide?_of_meet (h : ¬(Interval.between l u).disjoint (.between l' u') = true) :
    s.decide? = none := by
  simp only [decide?, hl, hr, if_neg h]

theorem step_of_between :
    s.step = if s.leftNext then ⟨s.left.refine, s.right, !s.leftNext⟩
      else ⟨s.left, s.right.refine, !s.leftNext⟩ := by
  simp [step, isExact, hl, hr, Location.isExact]

end

end

section

variable {a b : IsolatedRoot} {v : Rat}

/-- A search that leaves the left root alone is one for the right root, whosever turn it
is. -/
theorem search_of_left_exact (h : a.location = .exact v) (turn : Bool) (cap : Nat) :
    ((search decide? step cap ⟨a, b, turn⟩).mapState fun s => (s.left, s.right))
      = ((b.compareValue v cap).map Ordering.swap).mapState fun b' => (a, b') := by
  refine search_mapState_eq (R := fun s b' => s.left = a ∧ s.right = b') ?_ ?_ ?_ ⟨rfl, rfl⟩ cap
  · rintro s b' ⟨rfl, rfl⟩
    rw [step_of_left_exact h]
    exact ⟨rfl, rfl⟩
  · rintro s b' ⟨rfl, rfl⟩
    rfl
  · rintro s b' ⟨rfl, rfl⟩
    rw [decide?_of_left_exact h, Option.map_map]
    rfl

theorem search_of_right_exact (h : b.location = .exact v) (turn : Bool) (cap : Nat) :
    ((search decide? step cap ⟨a, b, turn⟩).mapState fun s => (s.left, s.right))
      = (a.compareValue v cap).mapState fun a' => (a', b) := by
  rw [← (compareValue v cap a).map_id]
  refine search_mapState_eq (R := fun s a' => s.left = a' ∧ s.right = b) ?_ ?_ ?_ ⟨rfl, rfl⟩ cap
  · rintro s a' ⟨rfl, rfl⟩
    rw [step_of_right_exact h]
    exact ⟨rfl, rfl⟩
  · rintro s a' ⟨rfl, rfl⟩
    rfl
  · rintro s a' ⟨rfl, rfl⟩
    rw [decide?_of_right_exact h, Option.map_map]
    rfl

end

end Contest

namespace IsolatedRoot

section

variable {a b : IsolatedRoot} {v : Rat}

theorem compare_of_left_exact (h : a.location = .exact v) (cap : Nat) :
    a.compare b cap
      = ((b.compareValue v cap).map Ordering.swap).mapState fun b' => (a, b') := by
  have hshare : a.sharesRoot b = false := by simp [sharesRoot, isExact, h, Location.isExact]
  rw [IsolatedRoot.compare, hshare, if_neg Bool.false_ne_true]
  exact Contest.search_of_left_exact h true cap

theorem compare_of_right_exact (h : b.location = .exact v) (cap : Nat) :
    a.compare b cap = (a.compareValue v cap).mapState fun a' => (a', b) := by
  have hshare : a.sharesRoot b = false := by simp [sharesRoot, isExact, h, Location.isExact]
  rw [IsolatedRoot.compare, hshare, if_neg Bool.false_ne_true]
  exact Contest.search_of_right_exact h true cap

end

/-! ## Two roots in turn -/

/-- The comparison of two roots after `steps` bisections, of the left and the right one in
turn. Once one of them is known exactly, what is left of the cap is for the order of the
other one with it. Whether both are the same is looked at before the first bisection
only. -/
def compareFrom (cap steps : Nat) (a b : IsolatedRoot) :
    Outcome (IsolatedRoot × IsolatedRoot) Ordering :=
  match b.location, a.location with
  | .exact v, _ =>
    ((a.compareValueOnce v (cap - steps)).after steps).mapState fun a' => (a', b)
  | .between _ _, .exact v =>
    (((b.compareValueOnce v (cap - steps)).map Ordering.swap).after steps).mapState
      fun b' => (a, b')
  | .between l' u', .between l u =>
    if (Interval.between l u).disjoint (.between l' u') then
      ⟨.ok (Rational.order l l'), (a, b), steps, 0⟩
    else if steps = 0 && a.sharesRoot b then ⟨.ok .eq, (a, b), steps, 0⟩
    else if cap ≤ steps then ⟨.error (.notConverged steps), (a, b), steps, 0⟩
    else if steps % 2 = 0 then compareFrom cap (steps + 1) a.refine b
    else compareFrom cap (steps + 1) a b.refine
termination_by cap - steps

/-- How two roots compare, by bisecting them in turn. -/
def compareInTurn (a b : IsolatedRoot) (cap : Nat) :
    Outcome (IsolatedRoot × IsolatedRoot) Ordering :=
  compareFrom cap 0 a b

section

variable {a b : IsolatedRoot} {α β : ℝ}

/-- The loop in turn is the search with the turn read off the number of bisections, as
long as no common root was there to be found at the start. -/
theorem compareFrom_eq_search (ha : a.Isolates α) (hb : b.Isolates β) (cap steps : Nat)
    (hshare : steps = 0 → a.sharesRoot b = false) :
    compareFrom cap steps a b
      = ((search Contest.decide? Contest.step (cap - steps) ⟨a, b, steps % 2 = 0⟩).after
          steps).mapState fun s => (s.left, s.right) := by
  fun_induction compareFrom cap steps a b with
  | case1 steps a b v hright =>
      rw [← compareValue_eq_once ha]
      exact congrArg (Outcome.after steps) (Contest.search_of_right_exact hright _ _).symm
  | case2 steps a b l u v hleft =>
      rw [← compareValue_eq_once hb]
      exact congrArg (Outcome.after steps) (Contest.search_of_left_exact hleft _ _).symm
  | case3 steps a b l' u' l u hleft hright hdisj =>
      rw [search_of_answer (Contest.decide?_of_disjoint hleft hright hdisj)]
      rfl
  | case4 steps a b l' u' l u hleft hright _ hfound =>
      obtain ⟨hzero, hfound⟩ := Bool.and_eq_true _ _ ▸ hfound
      rw [hshare (of_decide_eq_true hzero)] at hfound
      cases hfound
  | case5 steps a b l' u' l u hleft hright hmeet _ hcap =>
      rw [Nat.sub_eq_zero_of_le hcap, search, searchFrom,
        Contest.decide?_of_meet (s := ⟨a, b, steps % 2 = 0⟩) hleft hright hmeet]
      rfl
  | case6 steps a b l' u' l u hleft hright hmeet _ hcap heven ih =>
      have hnext : ¬(steps + 1) % 2 = 0 := by omega
      rw [search_after_of_none (Contest.decide?_of_meet hleft hright hmeet) (not_le.mp hcap),
        Contest.step_of_between hleft hright, ih (refine_isolates ha) hb (by omega)]
      simp [heven, hnext]
  | case7 steps a b l' u' l u hleft hright hmeet _ hcap hodd ih =>
      have hnext : (steps + 1) % 2 = 0 := by omega
      rw [search_after_of_none (Contest.decide?_of_meet hleft hright hmeet) (not_le.mp hcap),
        Contest.step_of_between hleft hright, ih ha (refine_isolates hb) (by omega)]
      simp [hodd, hnext]

/-- Roots that are found to be the same are found so before any bisection. -/
theorem compareInTurn_of_sharesRoot (ha : a.Isolates α) (hb : b.Isolates β)
    (hshare : a.sharesRoot b = true) (cap : Nat) : a.compareInTurn b cap = .now .eq (a, b) := by
  obtain rfl := eq_of_sharesRoot ha hb hshare
  cases hright : b.location with
  | exact v => simp [sharesRoot, isExact, hright, Location.isExact] at hshare
  | between l' u' =>
      cases hleft : a.location with
      | exact v => simp [sharesRoot, isExact, hleft, Location.isExact] at hshare
      | between l u =>
          -- both intervals hold the number
          have hmeet : ¬(Interval.between l u).disjoint (.between l' u') = true := by
            rw [Interval.disjoint_iff, Set.not_disjoint_iff]
            exact ⟨α, ha.mem_between hleft, hb.mem_between hright⟩
          rw [compareInTurn, compareFrom]
          simp only [hleft, hright, if_neg hmeet, hshare]
          rfl

/-- **The order of two roots is found in turn**, with the bisections of one loop and of the
other one after it under one cap. -/
theorem compare_eq_inTurn (ha : a.Isolates α) (hb : b.Isolates β) (cap : Nat) :
    a.compare b cap = a.compareInTurn b cap := by
  by_cases hshare : a.sharesRoot b = true
  · rw [compareInTurn_of_sharesRoot ha hb hshare, IsolatedRoot.compare, if_pos hshare]
  · have hnot : a.sharesRoot b = false := Bool.eq_false_iff.mpr hshare
    rw [compareInTurn, compareFrom_eq_search ha hb cap 0 fun _ => hnot, IsolatedRoot.compare,
      if_neg hshare, Outcome.after_zero]
    rfl

end

end IsolatedRoot

end AlgebraicReals
