import Mathlib
import AlgebraicReals.Proofs.Poly.ToPolynomial

set_option autoImplicit false

/-! # Signs of real numbers

The sign of a real number, and what the signs of a polynomial's values do: they
are constant around a point where the polynomial is not zero and on intervals
without a root, and they settle on both ends of the line to what the leading
coefficient and the degree say. -/

namespace AlgebraicReals

open Polynomial Filter Topology

namespace Sign

/-- The sign of a real number. -/
noncomputable def ofReal (x : ℝ) : Sign :=
  if x < 0 then negative else if x = 0 then zero else positive

theorem ofReal_of_neg {x : ℝ} (h : x < 0) : ofReal x = negative := by
  rw [ofReal, if_pos h]

theorem ofReal_of_pos {x : ℝ} (h : 0 < x) : ofReal x = positive := by
  rw [ofReal, if_neg h.not_gt, if_neg h.ne']

@[simp] theorem ofReal_zero : ofReal 0 = zero := by
  rw [ofReal, if_neg (lt_irrefl 0), if_pos rfl]

@[simp] theorem ofReal_eq_zero_iff {x : ℝ} : ofReal x = zero ↔ x = 0 := by
  constructor
  · intro h
    rcases lt_trichotomy x 0 with hx | hx | hx
    · rw [ofReal_of_neg hx] at h
      cases h
    · exact hx
    · rw [ofReal_of_pos hx] at h
      cases h
  · rintro rfl
    exact ofReal_zero

theorem ofReal_neg (x : ℝ) : ofReal (-x) = -ofReal x := by
  rcases lt_trichotomy x 0 with hx | rfl | hx
  · rw [ofReal_of_neg hx, ofReal_of_pos (neg_pos.mpr hx)]
    rfl
  · rw [neg_zero, ofReal_zero]
    rfl
  · rw [ofReal_of_pos hx, ofReal_of_neg (neg_neg_of_pos hx)]
    rfl

@[simp] theorem ofReal_ratCast (x : Rat) : ofReal (x : ℝ) = ofRat x := by
  simp only [ofReal, ofRat, Rat.cast_lt_zero, Rat.cast_eq_zero]

theorem pos_of_ofReal {x : ℝ} (h : ofReal x = positive) : 0 < x := by
  rcases lt_trichotomy x 0 with hx | rfl | hx
  · rw [ofReal_of_neg hx] at h
    cases h
  · rw [ofReal_zero] at h
    cases h
  · exact hx

theorem neg_of_ofReal {x : ℝ} (h : ofReal x = negative) : x < 0 := by
  have hneg : ofReal (-x) = positive := by
    rw [ofReal_neg, h]
    rfl
  exact neg_pos.mp (pos_of_ofReal hneg)

theorem ofReal_eq_positive_iff {x : ℝ} : ofReal x = positive ↔ 0 < x :=
  ⟨pos_of_ofReal, ofReal_of_pos⟩

theorem ofReal_eq_negative_iff {x : ℝ} : ofReal x = negative ↔ x < 0 :=
  ⟨neg_of_ofReal, ofReal_of_neg⟩

theorem ofRat_eq_positive_iff {x : Rat} : ofRat x = positive ↔ 0 < x := by
  rw [← ofReal_ratCast, ofReal_eq_positive_iff, Rat.cast_pos]

theorem ofRat_eq_negative_iff {x : Rat} : ofRat x = negative ↔ x < 0 := by
  rw [← ofReal_ratCast, ofReal_eq_negative_iff, Rat.cast_lt_zero]

theorem neg_eq_zero_iff {s : Sign} : -s = zero ↔ s = zero := by
  cases s with
  | negative => exact ⟨fun h => Sign.noConfusion h, fun h => Sign.noConfusion h⟩
  | zero => exact ⟨fun _ => rfl, fun _ => rfl⟩
  | positive => exact ⟨fun h => Sign.noConfusion h, fun h => Sign.noConfusion h⟩

theorem ne_neg_self {s : Sign} (h : s ≠ zero) : s ≠ -s := by
  cases s with
  | negative => exact fun h => Sign.noConfusion h
  | zero => exact absurd rfl h
  | positive => exact fun h => Sign.noConfusion h

/-- Two numbers on the same side of `0` have the same sign. -/
theorem ofReal_eq_of_mul_pos {x y : ℝ} (h : 0 < x * y) : ofReal x = ofReal y := by
  rcases pos_and_pos_or_neg_and_neg_of_mul_pos h with ⟨hx, hy⟩ | ⟨hx, hy⟩
  · rw [ofReal_of_pos hx, ofReal_of_pos hy]
  · rw [ofReal_of_neg hx, ofReal_of_neg hy]

end Sign

namespace Poly

@[simp] theorem ofReal_realEval_ratCast (p : Poly) (x : Rat) :
    Sign.ofReal (p.realEval x) = p.signAt x := by
  rw [realEval_ratCast, Sign.ofReal_ratCast, signAt]

/-! ## Around a point -/

/-- Around a point that is not a root the sign does not change. -/
theorem eventually_sign_eq (p : Poly) {c : ℝ} (hc : p.realEval c ≠ 0) :
    ∀ᶠ x in 𝓝 c, Sign.ofReal (p.realEval x) = Sign.ofReal (p.realEval c) := by
  have hpos : 0 < p.realEval c * p.realEval c := mul_self_pos.mpr hc
  have hcont : Continuous fun x => p.realEval x * p.realEval c :=
    p.continuous_realEval.mul continuous_const
  filter_upwards [hcont.tendsto c |>.eventually (lt_mem_nhds hpos)] with x hx
  exact Sign.ofReal_eq_of_mul_pos hx

/-- Around a simple root the values are as if the polynomial were linear there. -/
theorem eventually_mul_derivative_pos (p : Poly) {c : ℝ} (hc : p.realEval c = 0)
    (hd : p.derivative.realEval c ≠ 0) :
    ∀ᶠ x in 𝓝 c, x ≠ c → 0 < p.realEval x * p.derivative.realEval c * (x - c) := by
  have hderiv : HasDerivAt p.realEval (p.derivative.realEval c) c := by
    rw [realEval, toPolynomial_derivative]
    exact p.toPolynomial.hasDerivAt_aeval c
  -- the slope from `c` tends to the derivative, so that it has its sign near `c`
  have hslope := hasDerivAt_iff_tendsto_slope.mp hderiv
  have hpos : 0 < p.derivative.realEval c * p.derivative.realEval c := mul_self_pos.mpr hd
  have hev := (hslope.mul_const (p.derivative.realEval c)).eventually (lt_mem_nhds hpos)
  filter_upwards [eventually_nhdsWithin_iff.mp hev] with x hx hne
  have hx := hx hne
  rw [slope_def_field, hc, sub_zero] at hx
  have hsq : 0 < (x - c) ^ 2 := sq_pos_of_ne_zero (sub_ne_zero.mpr hne)
  have hmul := mul_pos hx hsq
  have heq : p.realEval x / (x - c) * p.derivative.realEval c * (x - c) ^ 2
      = p.realEval x * p.derivative.realEval c * (x - c) := by
    have hne' : x - c ≠ 0 := sub_ne_zero.mpr hne
    field_simp
  rwa [heq] at hmul

/-! ## Where there is no root -/

theorem sign_eq_of_no_root (p : Poly) {S : Set ℝ} (hS : IsPreconnected S)
    (hroot : ∀ x ∈ S, p.realEval x ≠ 0) {x y : ℝ} (hx : x ∈ S) (hy : y ∈ S) :
    Sign.ofReal (p.realEval x) = Sign.ofReal (p.realEval y) := by
  apply Sign.ofReal_eq_of_mul_pos
  by_contra hle
  -- the values have different signs, and `0` is taken in between
  have hcont : ContinuousOn (fun z => p.realEval z * p.realEval y) S :=
    (p.continuous_realEval.mul continuous_const).continuousOn
  have hpos : 0 ≤ p.realEval y * p.realEval y := mul_self_nonneg _
  obtain ⟨z, hz, hzero⟩ := hS.intermediate_value hx hy hcont ⟨not_lt.mp hle, hpos⟩
  exact mul_ne_zero (hroot z hz) (hroot y hy) hzero

/-! ## Towards the ends of the line -/

theorem eventually_atTop_sign (f : ℝ[X]) :
    ∀ᶠ x in atTop, Sign.ofReal (f.eval x) = Sign.ofReal f.leadingCoeff := by
  by_cases hdeg : 0 < f.degree
  · have hlead : f.leadingCoeff ≠ 0 :=
      Polynomial.leadingCoeff_ne_zero.mpr (ne_zero_of_degree_gt hdeg)
    rcases lt_or_gt_of_ne hlead with hneg | hpos
    · filter_upwards [(f.tendsto_atBot_of_leadingCoeff_nonpos hdeg hneg.le).eventually
        (eventually_lt_atBot 0)] with x hx
      rw [Sign.ofReal_of_neg hx, Sign.ofReal_of_neg hneg]
    · filter_upwards [(f.tendsto_atTop_of_leadingCoeff_nonneg hdeg hpos.le).eventually
        (eventually_gt_atTop 0)] with x hx
      rw [Sign.ofReal_of_pos hx, Sign.ofReal_of_pos hpos]
  · have hconst : f = C (f.coeff 0) := eq_C_of_degree_le_zero (not_lt.mp hdeg)
    refine Eventually.of_forall fun x => ?_
    rw [hconst, eval_C, leadingCoeff_C]

theorem eventually_sign_atTop (p : Poly) :
    ∀ᶠ x in atTop, Sign.ofReal (p.realEval x) = p.signAtPosInfinity := by
  filter_upwards [eventually_atTop_sign (p.toPolynomial.map (algebraMap ℚ ℝ))] with x hx
  rw [eval_map_algebraMap, leadingCoeff_map, leadingCoeff_toPolynomial] at hx
  rw [realEval, hx, signAtPosInfinity]
  exact Sign.ofReal_ratCast p.leadingCoeff

theorem eventually_sign_atBot (p : Poly) :
    ∀ᶠ x in atBot, Sign.ofReal (p.realEval x) = p.signAtNegInfinity := by
  -- reflect the line: the sign of the leading coefficient changes with an odd degree
  have hrefl := eventually_atTop_sign ((p.toPolynomial.map (algebraMap ℚ ℝ)).comp (-Polynomial.X))
  filter_upwards [tendsto_neg_atBot_atTop.eventually hrefl] with x hx
  have hlead : ((p.toPolynomial.map (algebraMap ℚ ℝ)).comp (-Polynomial.X)).leadingCoeff
      = ((p.leadingCoeff : Rat) : ℝ) * (-1) ^ p.degree := by
    rw [leadingCoeff_comp (by rw [natDegree_neg, natDegree_X]; exact one_ne_zero),
      leadingCoeff_neg, leadingCoeff_X, leadingCoeff_map, leadingCoeff_toPolynomial,
      natDegree_map, natDegree_toPolynomial]
    rfl
  rw [hlead, eval_comp, Polynomial.eval_neg, eval_X, neg_neg, eval_map_algebraMap] at hx
  rw [realEval, hx, signAtNegInfinity, signAtPosInfinity]
  by_cases hodd : p.degree % 2 = 1
  · rw [if_pos hodd, Odd.neg_one_pow (Nat.odd_iff.mpr hodd), mul_neg_one, Sign.ofReal_neg,
      Sign.ofReal_ratCast]
  · have heven : Even p.degree := Nat.even_iff.mpr (by omega)
    rw [if_neg hodd, heven.neg_one_pow, mul_one, Sign.ofReal_ratCast]

end Poly

end AlgebraicReals
