import Mathlib
import AlgebraicReals.Interval.Lattice
import AlgebraicReals.Proofs.RealSign

set_option autoImplicit false

/-! # Intervals as sets of real numbers

An interval stands for a set of real numbers, `Interval.toSet`. The tests and
operations on intervals are about rational bounds only; here they are tied to the
set: which rationals belong to it, when it is empty, what the intersection and the
hull are, when one interval includes another, and what the sign of an interval tells
about its members.

Everything is done one side at a time, with the half-lines `Endpoint.above` and
`Endpoint.below` that an endpoint leaves open. -/

namespace AlgebraicReals

namespace Rational

theorem order_of_lt {x y : Rat} (h : x < y) : order x y = .lt := by
  rw [order, compareOfLessAndEq, if_pos h]

theorem order_of_gt {x y : Rat} (h : y < x) : order x y = .gt := by
  rw [order, compareOfLessAndEq, if_neg h.not_gt, if_neg h.ne']

theorem order_self (x : Rat) : order x x = .eq := by
  rw [order, compareOfLessAndEq, if_neg (lt_irrefl x), if_pos rfl]

theorem lt_midpoint {x y : Rat} (h : x < y) : x < midpoint x y :=
  left_lt_add_div_two.mpr h

theorem midpoint_lt {x y : Rat} (h : x < y) : midpoint x y < y :=
  add_div_two_lt_right.mpr h

end Rational

namespace Endpoint

/-! ## Half-lines -/

/-- The reals that a lower endpoint leaves. -/
def above : Endpoint → Set ℝ
  | infinite => Set.univ
  | finite v true => Set.Ici (v : ℝ)
  | finite v false => Set.Ioi (v : ℝ)

/-- The reals that an upper endpoint leaves. -/
def below : Endpoint → Set ℝ
  | infinite => Set.univ
  | finite v true => Set.Iic (v : ℝ)
  | finite v false => Set.Iio (v : ℝ)

theorem mem_above_finite {v : Rat} {i : Bool} {x : ℝ} :
    x ∈ (finite v i).above ↔ (v : ℝ) < x ∨ (i = true ∧ (v : ℝ) = x) := by
  cases i with
  | true => simpa [above] using le_iff_lt_or_eq
  | false => simp [above]

theorem mem_below_finite {v : Rat} {i : Bool} {x : ℝ} :
    x ∈ (finite v i).below ↔ x < (v : ℝ) ∨ (i = true ∧ x = (v : ℝ)) := by
  cases i with
  | true => simpa [below] using le_iff_lt_or_eq
  | false => simp [below]

theorem le_of_mem_above {v : Rat} {i : Bool} {x : ℝ} (h : x ∈ (finite v i).above) :
    (v : ℝ) ≤ x := by
  rcases mem_above_finite.mp h with h | ⟨-, h⟩
  · exact h.le
  · exact h.le

theorem le_of_mem_below {v : Rat} {i : Bool} {x : ℝ} (h : x ∈ (finite v i).below) :
    x ≤ (v : ℝ) := by
  rcases mem_below_finite.mp h with h | ⟨-, h⟩
  · exact h.le
  · exact h.le

@[simp] theorem admitsAbove_iff (e : Endpoint) (x : Rat) :
    e.admitsAbove x = true ↔ (x : ℝ) ∈ e.above := by
  rcases e with _ | ⟨v, _ | _⟩ <;> simp [admitsAbove, above]

@[simp] theorem admitsBelow_iff (e : Endpoint) (x : Rat) :
    e.admitsBelow x = true ↔ (x : ℝ) ∈ e.below := by
  rcases e with _ | ⟨v, _ | _⟩ <;> simp [admitsBelow, below]

theorem mem_above_of_le {e : Endpoint} {x y : ℝ} (hx : x ∈ e.above) (hxy : x ≤ y) :
    y ∈ e.above := by
  rcases e with _ | ⟨v, _ | _⟩
  · trivial
  · exact lt_of_lt_of_le hx hxy
  · exact le_trans hx hxy

theorem mem_below_of_le {e : Endpoint} {x y : ℝ} (hy : y ∈ e.below) (hxy : x ≤ y) :
    x ∈ e.below := by
  rcases e with _ | ⟨v, _ | _⟩
  · trivial
  · exact lt_of_le_of_lt hxy hy
  · exact le_trans hxy hy

theorem above_subset_of_lt {v w : Rat} (h : v < w) (a b : Bool) :
    (finite w b).above ⊆ (finite v a).above := by
  intro x hx
  exact mem_above_finite.mpr (.inl ((Rat.cast_lt.mpr h).trans_le (le_of_mem_above hx)))

theorem below_subset_of_lt {v w : Rat} (h : v < w) (a b : Bool) :
    (finite v a).below ⊆ (finite w b).below := by
  intro x hx
  exact mem_below_finite.mpr (.inl ((le_of_mem_below hx).trans_lt (Rat.cast_lt.mpr h)))

theorem above_innerLower (e f : Endpoint) : (e.innerLower f).above = e.above ∩ f.above := by
  rcases e with _ | ⟨v, a⟩
  · rw [innerLower, above, Set.univ_inter]
  rcases f with _ | ⟨w, b⟩
  · rw [innerLower, above, Set.inter_univ]
    exact fun h => Endpoint.noConfusion h
  rcases lt_trichotomy v w with h | rfl | h
  · rw [innerLower, Rational.order_of_lt h]
    exact (Set.inter_eq_right.mpr (above_subset_of_lt h a b)).symm
  · rw [innerLower, Rational.order_self]
    ext x
    simp only [Set.mem_inter_iff, mem_above_finite, Bool.and_eq_true]
    tauto
  · rw [innerLower, Rational.order_of_gt h]
    exact (Set.inter_eq_left.mpr (above_subset_of_lt h b a)).symm

theorem below_innerUpper (e f : Endpoint) : (e.innerUpper f).below = e.below ∩ f.below := by
  rcases e with _ | ⟨v, a⟩
  · rw [innerUpper, below, Set.univ_inter]
  rcases f with _ | ⟨w, b⟩
  · rw [innerUpper, below, Set.inter_univ]
    exact fun h => Endpoint.noConfusion h
  rcases lt_trichotomy v w with h | rfl | h
  · rw [innerUpper, Rational.order_of_lt h]
    exact (Set.inter_eq_left.mpr (below_subset_of_lt h a b)).symm
  · rw [innerUpper, Rational.order_self]
    ext x
    simp only [Set.mem_inter_iff, mem_below_finite, Bool.and_eq_true]
    tauto
  · rw [innerUpper, Rational.order_of_gt h]
    exact (Set.inter_eq_right.mpr (below_subset_of_lt h b a)).symm

theorem above_outerLower (e f : Endpoint) : (e.outerLower f).above = e.above ∪ f.above := by
  rcases e with _ | ⟨v, a⟩
  · exact (Set.univ_union _).symm
  rcases f with _ | ⟨w, b⟩
  · exact (Set.union_univ _).symm
  rcases lt_trichotomy v w with h | rfl | h
  · rw [outerLower, Rational.order_of_lt h]
    exact (Set.union_eq_left.mpr (above_subset_of_lt h a b)).symm
  · rw [outerLower, Rational.order_self]
    ext x
    simp only [Set.mem_union, mem_above_finite, Bool.or_eq_true]
    tauto
  · rw [outerLower, Rational.order_of_gt h]
    exact (Set.union_eq_right.mpr (above_subset_of_lt h b a)).symm

theorem below_outerUpper (e f : Endpoint) : (e.outerUpper f).below = e.below ∪ f.below := by
  rcases e with _ | ⟨v, a⟩
  · exact (Set.univ_union _).symm
  rcases f with _ | ⟨w, b⟩
  · exact (Set.union_univ _).symm
  rcases lt_trichotomy v w with h | rfl | h
  · rw [outerUpper, Rational.order_of_lt h]
    exact (Set.union_eq_right.mpr (below_subset_of_lt h a b)).symm
  · rw [outerUpper, Rational.order_self]
    ext x
    simp only [Set.mem_union, mem_below_finite, Bool.or_eq_true]
    tauto
  · rw [outerUpper, Rational.order_of_gt h]
    exact (Set.union_eq_left.mpr (below_subset_of_lt h b a)).symm

theorem coversAbove_iff (e f : Endpoint) : e.coversAbove f = true ↔ f.above ⊆ e.above := by
  rcases e with _ | ⟨v, a⟩
  · exact ⟨fun _ => Set.subset_univ _, fun _ => rfl⟩
  rcases f with _ | ⟨w, b⟩
  · simp only [coversAbove, Bool.false_eq_true, false_iff]
    intro h
    exact absurd (le_of_mem_above (h (Set.mem_univ ((v : ℝ) - 1)))) (sub_one_lt _).not_ge
  · cases a <;> cases b <;> simp [coversAbove, above, ← le_iff_lt_or_eq]

theorem coversBelow_iff (e f : Endpoint) : e.coversBelow f = true ↔ f.below ⊆ e.below := by
  rcases e with _ | ⟨v, a⟩
  · exact ⟨fun _ => Set.subset_univ _, fun _ => rfl⟩
  rcases f with _ | ⟨w, b⟩
  · simp only [coversBelow, Bool.false_eq_true, false_iff]
    intro h
    exact absurd (le_of_mem_below (h (Set.mem_univ ((v : ℝ) + 1)))) (lt_add_one _).not_ge
  · cases a <;> cases b <;> simp [coversBelow, below, eq_comm (a := v), ← le_iff_lt_or_eq]

end Endpoint

namespace Interval

/-! ## Members -/

/-- The real numbers in an interval. -/
def toSet (I : Interval) : Set ℝ :=
  I.lower.above ∩ I.upper.below

theorem mem_toSet (I : Interval) (x : ℝ) : x ∈ I.toSet ↔ x ∈ I.lower.above ∧ x ∈ I.upper.below :=
  Iff.rfl

@[simp] theorem contains_iff (I : Interval) (x : Rat) : I.contains x = true ↔ (x : ℝ) ∈ I.toSet := by
  rw [contains, Bool.and_eq_true, Endpoint.admitsAbove_iff, Endpoint.admitsBelow_iff, mem_toSet]

@[simp] theorem toSet_between (l u : Rat) : (between l u).toSet = Set.Ioo (l : ℝ) u :=
  Set.Ioi_inter_Iio

theorem toSet_closed (l u : Rat) :
    (⟨.finite l true, .finite u true⟩ : Interval).toSet = Set.Icc (l : ℝ) u :=
  Set.Ici_inter_Iic

@[simp] theorem toSet_point (x : Rat) : (point x).toSet = {(x : ℝ)} := by
  rw [point, toSet_closed, Set.Icc_self]

@[simp] theorem toSet_empty : empty.toSet = ∅ := by
  rw [empty, toSet_between, Set.Ioo_self]

theorem contains_between (l u x : Rat) : (between l u).contains x = true ↔ l < x ∧ x < u := by
  rw [contains_iff, toSet_between, Set.mem_Ioo, Rat.cast_lt, Rat.cast_lt]

theorem point?_eq_some_iff (I : Interval) (x : Rat) : I.point? = some x ↔ I = point x := by
  obtain ⟨l, u⟩ := I
  rcases l with _ | ⟨l, _ | _⟩ <;> rcases u with _ | ⟨u, _ | _⟩ <;>
    simp only [point?, point, mk.injEq, Endpoint.finite.injEq, reduceCtorEq, and_true, and_false,
      false_and, Option.ite_none_right_eq_some, Option.some.injEq]
  constructor
  · rintro ⟨rfl, rfl⟩
    exact ⟨rfl, rfl⟩
  · rintro ⟨rfl, rfl⟩
    exact ⟨rfl, rfl⟩

/-- Only the test for room between the bounds is needed to see that an interval
is empty. -/
theorem isEmpty_iff (I : Interval) : I.isEmpty = true ↔ I.toSet = ∅ := by
  obtain ⟨l, u⟩ := I
  rcases l with _ | ⟨l, a⟩
  · rcases u with _ | ⟨u, b⟩
    · simp only [isEmpty, Bool.false_eq_true, false_iff]
      exact Set.Nonempty.ne_empty ⟨0, trivial, trivial⟩
    · simp only [isEmpty, Bool.false_eq_true, false_iff]
      exact Set.Nonempty.ne_empty ⟨u - 1, trivial, Endpoint.mem_below_finite.mpr (.inl (by simp))⟩
  · rcases u with _ | ⟨u, b⟩
    · simp only [isEmpty, Bool.false_eq_true, false_iff]
      exact Set.Nonempty.ne_empty ⟨l + 1, Endpoint.mem_above_finite.mpr (.inl (by simp)), trivial⟩
    · rw [Set.eq_empty_iff_forall_notMem]
      constructor
      · intro h x hx
        have hlx := Endpoint.le_of_mem_above hx.1
        have hxu := Endpoint.le_of_mem_below hx.2
        rcases (Rat.cast_le.mp (hlx.trans hxu)).lt_or_eq with hlu | rfl
        · simp [isEmpty, hlu] at h
        · -- the member is the common end, which both sides include
          have ha := (Endpoint.mem_above_finite.mp hx.1).resolve_left hxu.not_gt
          have hb := (Endpoint.mem_below_finite.mp hx.2).resolve_left hlx.not_gt
          simp [isEmpty, ha.1, hb.1] at h
      · intro h
        simp only [mem_toSet, Endpoint.mem_above_finite, Endpoint.mem_below_finite] at h
        simp only [isEmpty]
        rcases lt_trichotomy l u with hlu | rfl | hlu
        · -- the midpoint would be a member
          have hr : (l : ℝ) < u := Rat.cast_lt.mpr hlu
          exact absurd ⟨.inl (left_lt_add_div_two.mpr hr), .inl (add_div_two_lt_right.mpr hr)⟩
            (h (((l : ℝ) + u) / 2))
        · -- only `l` itself could be a member, and it is one if both ends include it
          have hll := h l
          simp only [lt_irrefl, false_or, and_true] at hll
          cases a <;> cases b <;> simp_all
        · simp [hlu.not_gt, hlu.ne']

theorem isEmpty_eq_false {I : Interval} {x : ℝ} (hx : x ∈ I.toSet) : I.isEmpty = false := by
  rw [Bool.eq_false_iff, Ne, isEmpty_iff]
  exact Set.Nonempty.ne_empty ⟨x, hx⟩

theorem nonempty_toSet {I : Interval} (h : I.isEmpty = false) : I.toSet.Nonempty := by
  rw [Set.nonempty_iff_ne_empty, Ne, ← isEmpty_iff, h]
  exact Bool.false_ne_true

/-- What lies left of an interval with members is not cut off by its upper end. -/
theorem mem_below_of_notMem_above {I : Interval} (h : I.isEmpty = false) {x : ℝ}
    (hx : x ∉ I.lower.above) : x ∈ I.upper.below := by
  obtain ⟨y, hy, hy'⟩ := nonempty_toSet h
  have hxy : x ≤ y := by
    by_contra hlt
    exact hx (Endpoint.mem_above_of_le hy (not_le.mp hlt).le)
  exact Endpoint.mem_below_of_le hy' hxy

/-- The lower end of an interval with members is a member if it is included. -/
theorem lower_mem {I : Interval} (h : I.isEmpty = false)
    (hl : I.lower.kind.isIncluded = true) : (I.lower.value : ℝ) ∈ I.toSet := by
  obtain ⟨y, hy, hy'⟩ := nonempty_toSet h
  obtain ⟨l, u⟩ := I
  rcases l with _ | ⟨l, _ | _⟩
  · cases hl
  · cases hl
  · exact ⟨Set.mem_Ici.mpr le_rfl, Endpoint.mem_below_of_le hy' hy⟩

theorem upper_mem {I : Interval} (h : I.isEmpty = false)
    (hu : I.upper.kind.isIncluded = true) : (I.upper.value : ℝ) ∈ I.toSet := by
  obtain ⟨y, hy, hy'⟩ := nonempty_toSet h
  obtain ⟨l, u⟩ := I
  rcases u with _ | ⟨u, _ | _⟩
  · cases hu
  · cases hu
  · exact ⟨Endpoint.mem_above_of_le hy hy', Set.mem_Iic.mpr le_rfl⟩

/-! ## Intersection -/

theorem toSet_inter (I J : Interval) : (I.inter J).toSet = I.toSet ∩ J.toSet := by
  have hK : (⟨I.lower.innerLower J.lower, I.upper.innerUpper J.upper⟩ : Interval).toSet
      = I.toSet ∩ J.toSet := by
    simp only [toSet, Endpoint.above_innerLower, Endpoint.below_innerUpper]
    exact Set.inter_inter_inter_comm _ _ _ _
  rw [inter]
  split
  · rename_i h
    rw [toSet_empty, ← hK]
    simp only [Bool.or_eq_true, isEmpty_iff] at h
    rcases h with (h | h) | h
    · rw [hK, h, Set.empty_inter]
    · rw [hK, h, Set.inter_empty]
    · exact h.symm
  · exact hK

theorem disjoint_iff (I J : Interval) : I.disjoint J = true ↔ Disjoint I.toSet J.toSet := by
  rw [disjoint, isEmpty_iff, toSet_inter, Set.disjoint_iff_inter_eq_empty]

/-! ## Hull -/

theorem toSet_hull {I J : Interval} (hI : I.isEmpty = false) (hJ : J.isEmpty = false) :
    (I.hull J).toSet
      = (I.lower.above ∪ J.lower.above) ∩ (I.upper.below ∪ J.upper.below) := by
  rw [hull, hI, hJ, ← Endpoint.above_outerLower, ← Endpoint.below_outerUpper]
  rfl

theorem subset_hull_left (I J : Interval) : I.toSet ⊆ (I.hull J).toSet := by
  intro x hx
  cases hJ : J.isEmpty with
  | true =>
      rw [hull, isEmpty_eq_false hx, hJ]
      exact hx
  | false =>
      rw [toSet_hull (isEmpty_eq_false hx) hJ]
      exact ⟨.inl hx.1, .inl hx.2⟩

theorem subset_hull_right (I J : Interval) : J.toSet ⊆ (I.hull J).toSet := by
  intro x hx
  cases hI : I.isEmpty with
  | true =>
      rw [hull, hI]
      exact hx
  | false =>
      rw [toSet_hull hI (isEmpty_eq_false hx)]
      exact ⟨.inr hx.1, .inr hx.2⟩

/-- The hull of two intervals with a common member adds nothing. -/
theorem toSet_hull_of_mem {I J : Interval} {w : ℝ} (hI : w ∈ I.toSet) (hJ : w ∈ J.toSet) :
    (I.hull J).toSet = I.toSet ∪ J.toSet := by
  rw [toSet_hull (isEmpty_eq_false hI) (isEmpty_eq_false hJ)]
  ext x
  constructor
  · rintro ⟨hl, hu⟩
    rcases le_total x w with hxw | hwx
    · -- left of `w` only the lower ends count
      rcases hl with hl | hl
      · exact .inl ⟨hl, Endpoint.mem_below_of_le hI.2 hxw⟩
      · exact .inr ⟨hl, Endpoint.mem_below_of_le hJ.2 hxw⟩
    · rcases hu with hu | hu
      · exact .inl ⟨Endpoint.mem_above_of_le hI.1 hwx, hu⟩
      · exact .inr ⟨Endpoint.mem_above_of_le hJ.1 hwx, hu⟩
  · rintro (hx | hx)
    · exact ⟨.inl hx.1, .inl hx.2⟩
    · exact ⟨.inr hx.1, .inr hx.2⟩

/-! ## Inclusion -/

/-- An interval with members has no other half-lines than those it is cut from. -/
theorem subset_iff {I J : Interval} (hJ : J.isEmpty = false) :
    J.toSet ⊆ I.toSet ↔ J.lower.above ⊆ I.lower.above ∧ J.upper.below ⊆ I.upper.below := by
  obtain ⟨y, hy⟩ := nonempty_toSet hJ
  constructor
  · intro h
    constructor
    · intro z hz
      have hmem : min z y ∈ J.toSet := by
        refine ⟨?_, Endpoint.mem_below_of_le hy.2 (min_le_right z y)⟩
        rcases min_choice z y with hmin | hmin
        · rwa [hmin]
        · rw [hmin]
          exact hy.1
      exact Endpoint.mem_above_of_le (h hmem).1 (min_le_left z y)
    · intro z hz
      have hmem : max z y ∈ J.toSet := by
        refine ⟨Endpoint.mem_above_of_le hy.1 (le_max_right z y), ?_⟩
        rcases max_choice z y with hmax | hmax
        · rwa [hmax]
        · rw [hmax]
          exact hy.2
      exact Endpoint.mem_below_of_le (h hmem).2 (le_max_left z y)
  · rintro ⟨hl, hu⟩ x hx
    exact ⟨hl hx.1, hu hx.2⟩

theorem includes_iff (I J : Interval) : I.includes J = true ↔ J.toSet ⊆ I.toSet := by
  cases hJ : J.isEmpty with
  | true => simp [includes, hJ, (isEmpty_iff J).mp hJ]
  | false =>
      cases hI : I.isEmpty with
      | true =>
          simp only [includes, hI, hJ, (isEmpty_iff I).mp hI, Set.subset_empty_iff, ← isEmpty_iff]
          simp
      | false =>
          rw [subset_iff hJ, ← Endpoint.coversAbove_iff, ← Endpoint.coversBelow_iff]
          simp [includes, hI, hJ]

/-! ## Sign -/

/-- A sign of an interval other than zero is the sign of all members. -/
theorem ofReal_eq_sign {I : Interval} (h : I.sign ≠ .zero) {x : ℝ} (hx : x ∈ I.toSet) :
    Sign.ofReal x = I.sign := by
  obtain ⟨hl, hu⟩ := (mem_toSet I x).mp hx
  rw [sign, if_neg (by simp [isEmpty_eq_false hx])] at h ⊢
  split at h
  · rename_i h0
    rw [if_pos h0]
    simp only [Bool.not_eq_true', Bool.eq_false_iff, ne_eq, Endpoint.admitsBelow_iff,
      Rat.cast_zero] at h0
    -- a member from `0` on would bring `0` below the upper end
    exact Sign.ofReal_of_neg (not_le.mp fun hx0 => h0 (Endpoint.mem_below_of_le hu hx0))
  · rename_i h0
    rw [if_neg h0]
    split at h
    · rename_i h1
      rw [if_pos h1]
      simp only [Bool.not_eq_true', Bool.eq_false_iff, ne_eq, Endpoint.admitsAbove_iff,
        Rat.cast_zero] at h1
      exact Sign.ofReal_of_pos (not_le.mp fun hx0 => h1 (Endpoint.mem_above_of_le hl hx0))
    · exact absurd rfl h

/-- An interval with members and sign zero holds the number `0`. -/
theorem zero_mem_of_sign {I : Interval} (h : I.sign = .zero) {x : ℝ} (hx : x ∈ I.toSet) :
    (0 : ℝ) ∈ I.toSet := by
  have hcast : ((0 : Rat) : ℝ) = 0 := Rat.cast_zero
  rw [sign, if_neg (by simp [isEmpty_eq_false hx])] at h
  split at h
  · cases h
  · rename_i hu
    split at h
    · cases h
    · rename_i hl
      simp only [Bool.not_eq_true', Bool.not_eq_false, Endpoint.admitsAbove_iff,
        Endpoint.admitsBelow_iff, hcast] at hl hu
      exact ⟨hl, hu⟩

end Interval

end AlgebraicReals
