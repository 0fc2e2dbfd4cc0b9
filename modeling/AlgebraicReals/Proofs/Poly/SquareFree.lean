import Mathlib
import AlgebraicReals.Proofs.Poly.CommonDivisor

set_option autoImplicit false

/-! # The square-free part

The square-free part of a polynomial has the same roots, each of them once, and there is
nothing left to take out of it. The two facts about roots are those of
`AlgebraicReals.Proofs.Poly.Euclid`: the square-free part is coprime to its derivative
(`Poly.separable_squareFreePart`), and no root gets lost in any field around the rationals
(`Poly.aeval_squareFreePart_eq_zero_iff`). The first of them also says that the computed
greatest common divisor with the derivative is `1`, so that taking the square-free part again
is to divide by `1`. -/

namespace AlgebraicReals.Poly

open Polynomial

/-! ## Coprime polynomials -/

theorem toPolynomial_const (c : Rat) : (const c).toPolynomial = C c := by
  rw [const, toPolynomial_ofCoeffs, Coeffs.toPolynomial_cons, Coeffs.toPolynomial_nil, mul_zero,
    add_zero]

theorem gcd_eq_one {p q : Poly} (h : IsCoprime p.toPolynomial q.toPolynomial) :
    p.gcd q = const 1 := by
  have hne : ¬(p = zero ∧ q = zero) := by
    rintro ⟨rfl, rfl⟩
    exact not_isCoprime_zero_zero h
  have hmonic : (p.gcd q).toPolynomial.Monic := by
    rw [Monic, leadingCoeff_toPolynomial]
    exact leadingCoeff_gcd hne
  have hunit : IsUnit (p.gcd q).toPolynomial :=
    h.isUnit_of_dvd' (dvd_iff.mp (gcd_dvd p q).1) (dvd_iff.mp (gcd_dvd p q).2)
  apply toPolynomial_injective
  rw [hmonic.eq_one_of_isUnit hunit, toPolynomial_const, C_1]

theorem div_const_one (p : Poly) : p / const 1 = p := by
  have hone : (const 1).isZero = false := by decide +kernel
  have hdvd : (const 1).toPolynomial ∣ p.toPolynomial := by
    rw [toPolynomial_const, C_1]
    exact one_dvd _
  have hcancel := toPolynomial_div_mul_cancel hone hdvd
  rw [toPolynomial_const, C_1, mul_one] at hcancel
  exact toPolynomial_injective hcancel

theorem monic_eq_self {p : Poly} (hp : p.leadingCoeff = 1) : p.monic = p := by
  apply toPolynomial_injective
  rw [toPolynomial_monic, hp, one_div_one, C_1, one_mul]

/-! ## The square-free part -/

theorem squareFreePart_zero : zero.squareFreePart = zero := by
  have hderiv : zero.derivative = zero := rfl
  rw [squareFreePart, hderiv, gcd_zero_zero]
  decide +kernel

section

variable {p : Poly} (hp : p.isZero = false)

include hp

theorem leadingCoeff_squareFreePart : p.squareFreePart.leadingCoeff = 1 := by
  rw [← leadingCoeff_toPolynomial]
  exact monic_squareFreePart hp

theorem squareFreePart_squareFreePart :
    p.squareFreePart.squareFreePart = p.squareFreePart := by
  have hgcd := gcd_eq_one (separable_squareFreePart hp)
  rw [squareFreePart, hgcd, div_const_one, monic_eq_self (leadingCoeff_squareFreePart hp)]

theorem rootSet_squareFreePart :
    p.squareFreePart.toPolynomial.rootSet ℂ = p.toPolynomial.rootSet ℂ := by
  ext z
  rw [mem_rootSet_of_ne (toPolynomial_ne_zero (squareFreePart_isZero hp)),
    mem_rootSet_of_ne (toPolynomial_ne_zero hp)]
  exact aeval_squareFreePart_eq_zero_iff hp z

theorem nodup_aroots_squareFreePart : (p.squareFreePart.toPolynomial.aroots ℂ).Nodup := by
  have hsep : p.squareFreePart.toPolynomial.Separable := by
    have hcop := separable_squareFreePart hp
    rwa [toPolynomial_derivative] at hcop
  exact nodup_roots hsep.map

end

/-- **The square-free part has the same roots, each of them once.** The square-free part of
zero is zero. For every other polynomial it is monic and divides the polynomial; it has the
same real roots and the same complex ones; it has no divisor in common with its derivative, so
that each complex root is listed once; and it is its own square-free part. -/
theorem squareFreePart_same_roots_once :
    zero.squareFreePart = zero
      ∧ ∀ p : Poly, p ≠ zero →
        p.squareFreePart.leadingCoeff = 1
          ∧ p.squareFreePart ∣ p
          ∧ p.squareFreePart.realRoots = p.realRoots
          ∧ p.squareFreePart.toPolynomial.rootSet ℂ = p.toPolynomial.rootSet ℂ
          ∧ p.squareFreePart.gcd p.squareFreePart.derivative = const 1
          ∧ (p.squareFreePart.toPolynomial.aroots ℂ).Nodup
          ∧ p.squareFreePart.squareFreePart = p.squareFreePart := by
  refine ⟨squareFreePart_zero, fun p hp => ?_⟩
  have hz : p.isZero = false := isZero_eq_false_of_ne hp
  refine ⟨leadingCoeff_squareFreePart hz, ?_, realRoots_squareFreePart hz,
    rootSet_squareFreePart hz, ?_, nodup_aroots_squareFreePart hz,
    squareFreePart_squareFreePart hz⟩
  · exact dvd_iff.mpr (squareFreePart_dvd hz)
  · exact gcd_eq_one (separable_squareFreePart hz)

/-- The polynomial `-2·(x - 1)²·(x + 2)` has the square-free part `(x - 1)·(x + 2)`. -/
theorem squareFreePart_same_roots_once_double_root :
    ofCoeffs [-4, 6, 0, -2] ≠ zero
      ∧ (ofCoeffs [-4, 6, 0, -2]).squareFreePart = ofCoeffs [-2, 1, 1]
      ∧ (ofCoeffs [-2, 1, 1]).realRoots = (ofCoeffs [-4, 6, 0, -2]).realRoots
      ∧ ((ofCoeffs [-2, 1, 1]).toPolynomial.aroots ℂ).Nodup := by
  have hne : ofCoeffs [-4, 6, 0, -2] ≠ zero := by decide +kernel
  have hpart : (ofCoeffs [-4, 6, 0, -2]).squareFreePart = ofCoeffs [-2, 1, 1] := by
    decide +kernel
  obtain ⟨-, -, hreal, -, -, hnodup, -⟩ := squareFreePart_same_roots_once.2 _ hne
  rw [hpart] at hreal hnodup
  exact ⟨hne, hpart, hreal, hnodup⟩

end AlgebraicReals.Poly
