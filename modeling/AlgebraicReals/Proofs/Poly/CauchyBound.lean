import Mathlib
import AlgebraicReals.Poly.CauchyBound
import AlgebraicReals.Proofs.RealSign

set_option autoImplicit false

/-! # All roots are below Cauchy's bound

The computed bound is at least the one of the analysis library, whose theorem on
roots then applies. As there are no roots from the bound on, the sign does not
change there, and it is the one that is settled on towards infinity. -/

namespace AlgebraicReals

open Polynomial Filter

theorem Rational.magnitude_eq_abs (x : Rat) : Rational.magnitude x = |x| := by
  rw [magnitude]
  split
  · rename_i h
    rw [abs_of_neg h]
  · rename_i h
    rw [abs_of_nonneg (not_lt.mp h)]

namespace Poly

theorem ratio_le_largestRatio (lead : Rat) {cs : List Rat} {a : Rat} (ha : a ∈ cs) :
    |a| / |lead| ≤ largestRatio lead cs := by
  induction cs with
  | nil => cases ha
  | cons b cs ih =>
      simp only [largestRatio, Rational.magnitude_eq_abs]
      rcases List.mem_cons.mp ha with rfl | ha
      · split
        · exact le_rfl
        · exact not_lt.mp ‹_›
      · split
        · exact (ih ha).trans (le_of_lt ‹_›)
        · exact ih ha

theorem largestRatio_nonneg (lead : Rat) (cs : List Rat) : 0 ≤ largestRatio lead cs := by
  induction cs with
  | nil => exact le_rfl
  | cons b cs ih =>
      simp only [largestRatio]
      split
      · exact ih.trans (le_of_lt ‹_›)
      · exact ih

/-- Every lower coefficient is at most the largest ratio times the leading one. -/
theorem abs_coeff_le {p : Poly} (hp : p.isZero = false) {k : Nat} (hk : k < p.degree) :
    |p.coeff k| ≤ largestRatio p.leadingCoeff p.coeffs.dropLast * |p.leadingCoeff| := by
  have hk' : k < p.coeffs.dropLast.length := by
    rw [degree] at hk
    rwa [List.length_dropLast]
  have hget : p.coeffs.dropLast[k] = p.coeff k := by
    rw [List.getElem_dropLast, coeff, List.getD_eq_getElem]
  have hmem : p.coeff k ∈ p.coeffs.dropLast := hget ▸ List.getElem_mem hk'
  have hpos : 0 < |p.leadingCoeff| := abs_pos.mpr (leadingCoeff_ne_zero hp)
  exact (div_le_iff₀ hpos).mp (ratio_le_largestRatio p.leadingCoeff hmem)

/-- **Cauchy's bound.** Every real root lies strictly between `-B` and `B`. -/
theorem abs_lt_cauchyBound {p : Poly} (hp : p.isZero = false) {x : ℝ} (hx : p.realEval x = 0) :
    |x| < p.cauchyBound := by
  set f := p.toPolynomial.map (algebraMap ℚ ℝ) with hf
  have hf0 : f ≠ 0 :=
    (Polynomial.map_ne_zero_iff (algebraMap ℚ ℝ).injective).mpr (toPolynomial_ne_zero hp)
  have hroot : f.IsRoot x := by
    rw [IsRoot, hf, eval_map_algebraMap]
    exact hx
  have hlt : ‖x‖₊ < Polynomial.cauchyBound f := hroot.norm_lt_cauchyBound hf0
  have hlead : ‖f.leadingCoeff‖ = |(p.leadingCoeff : ℝ)| := by
    rw [hf, leadingCoeff_map, leadingCoeff_toPolynomial]
    rfl
  have hleadpos : 0 < |(p.leadingCoeff : ℝ)| :=
    abs_pos.mpr (Rat.cast_ne_zero.mpr (leadingCoeff_ne_zero hp))
  set M : ℝ := ((largestRatio p.leadingCoeff p.coeffs.dropLast : Rat) : ℝ) with hM
  have hM0 : 0 ≤ M := Rat.cast_nonneg.mpr (largestRatio_nonneg _ _)
  have hcoeff : ∀ k ∈ Finset.range f.natDegree, ‖f.coeff k‖₊ ≤ M.toNNReal * ‖f.leadingCoeff‖₊ := by
    intro k hk
    rw [Finset.mem_range, hf, natDegree_map, natDegree_toPolynomial] at hk
    rw [← NNReal.coe_le_coe, NNReal.coe_mul, Real.coe_toNNReal M hM0, coe_nnnorm, coe_nnnorm, hlead,
      hf, coeff_map, coeff_toPolynomial, hM]
    show |(p.coeff k : ℝ)| ≤ _
    exact_mod_cast abs_coeff_le hp hk
  have hle : (Polynomial.cauchyBound f : ℝ) ≤ p.cauchyBound := by
    have hsup := NNReal.coe_le_coe.mpr (Finset.sup_le hcoeff)
    rw [NNReal.coe_mul, Real.coe_toNNReal M hM0, coe_nnnorm, hlead] at hsup
    rw [Polynomial.cauchyBound, NNReal.coe_add, NNReal.coe_div, coe_nnnorm, hlead, cauchyBound,
      Rat.cast_add, ← hM, add_comm]
    exact add_le_add (by simp) ((div_le_iff₀ hleadpos).mpr hsup)
  exact (NNReal.coe_lt_coe.mpr hlt).trans_le hle

/-! ## Signs beyond the bound -/

section

variable {p : Poly} (hp : p.isZero = false) {x : ℝ}

include hp

theorem sign_of_cauchyBound_le (hx : (p.cauchyBound : ℝ) ≤ x) :
    Sign.ofReal (p.realEval x) = p.signAtPosInfinity := by
  have hroot : ∀ y ∈ Set.Ici x, p.realEval y ≠ 0 := by
    intro y hy h0
    have hlt : |y| < x := (abs_lt_cauchyBound hp h0).trans_le hx
    exact ((le_abs_self y).trans_lt hlt).not_ge hy
  obtain ⟨y, hsign, hy⟩ := ((eventually_sign_atTop p).and (eventually_ge_atTop x)).exists
  rw [← hsign]
  exact p.sign_eq_of_no_root isPreconnected_Ici hroot Set.self_mem_Ici hy

theorem sign_of_le_neg_cauchyBound (hx : x ≤ -(p.cauchyBound : ℝ)) :
    Sign.ofReal (p.realEval x) = p.signAtNegInfinity := by
  have hroot : ∀ y ∈ Set.Iic x, p.realEval y ≠ 0 := by
    intro y hy h0
    have hlt : |y| < -x := (abs_lt_cauchyBound hp h0).trans_le (le_neg_of_le_neg hx)
    exact (neg_lt_neg_iff.mp ((neg_le_abs y).trans_lt hlt)).not_ge hy
  obtain ⟨y, hsign, hy⟩ := ((eventually_sign_atBot p).and (eventually_le_atBot x)).exists
  rw [← hsign]
  exact p.sign_eq_of_no_root isPreconnected_Iic hroot Set.self_mem_Iic hy

end

/-- **Beyond Cauchy's bound nothing happens.** For every polynomial but zero, all real roots
lie strictly between `-B` and `B`; from `B` on, with `B` included, the sign is the one at
plus infinity, and up to `-B` it is the one at minus infinity. -/
theorem cauchyBound_bounds_roots_and_signs (p : Poly) (hp : p ≠ zero) :
    (∀ r ∈ p.realRoots, |r| < p.cauchyBound)
      ∧ (∀ x : Rat, p.cauchyBound ≤ x → p.signAt x = p.signAtPosInfinity)
      ∧ ∀ x : Rat, x ≤ -p.cauchyBound → p.signAt x = p.signAtNegInfinity := by
  have hz : p.isZero = false := isZero_eq_false_of_ne hp
  refine ⟨fun r hr => abs_lt_cauchyBound hz hr, fun x hx => ?_, fun x hx => ?_⟩
  · rw [← ofReal_realEval_ratCast]
    exact sign_of_cauchyBound_le hz (Rat.cast_le.mpr hx)
  · rw [← ofReal_realEval_ratCast]
    refine sign_of_le_neg_cauchyBound hz ?_
    exact_mod_cast hx

/-- The polynomial `x - x³/2` with the bound `3`: it is negative at the bound and positive at
the opposite number. -/
theorem cauchyBound_bounds_roots_and_signs_cubic :
    ofCoeffs [0, 1, 0, -1 / 2] ≠ zero
      ∧ (∀ r ∈ (ofCoeffs [0, 1, 0, -1 / 2]).realRoots, |r| < 3)
      ∧ (ofCoeffs [0, 1, 0, -1 / 2]).signAt 3 = .negative
      ∧ (ofCoeffs [0, 1, 0, -1 / 2]).signAt (-3) = .positive := by
  have hne : ofCoeffs [0, 1, 0, -1 / 2] ≠ zero := by decide +kernel
  have hbound : (ofCoeffs [0, 1, 0, -1 / 2]).cauchyBound = 3 := by decide +kernel
  obtain ⟨hroots, hright, hleft⟩ := cauchyBound_bounds_roots_and_signs _ hne
  rw [hbound] at hroots hright hleft
  refine ⟨hne, ?_, ?_, ?_⟩
  · exact_mod_cast hroots
  · exact (hright 3 le_rfl).trans (by decide +kernel)
  · exact (hleft (-3) le_rfl).trans (by decide +kernel)

end Poly

end AlgebraicReals
