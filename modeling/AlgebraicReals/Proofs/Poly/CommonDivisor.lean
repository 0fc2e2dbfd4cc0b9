import Mathlib
import AlgebraicReals.Proofs.Poly.Euclid

set_option autoImplicit false

/-! # The greatest common divisor

What `Poly.gcd` computes, said in terms of polynomials alone: `d ∣ p` means that `p` is a
product `d·q` of polynomials. As polynomials are the elements of the polynomial ring, this is
divisibility there (`Poly.dvd_iff`), and the facts about the ring carry over.

The divisors of the greatest common divisor are the common divisors (`Poly.dvd_gcd_iff`), so
that it is determined up to a factor, and being monic fixes the factor. All other statements
follow from this. That the computation ends is a statement about the rounds it goes through:
a round replaces `(a, b)` by `(b, a % b)`, which keeps the greatest common divisor and makes
the second polynomial shorter. -/

namespace AlgebraicReals.Poly

open Polynomial

/-! ## Divisibility -/

/-- One polynomial divides another if the latter is a multiple. -/
instance : Dvd Poly := ⟨fun d p => ∃ q, p = d * q⟩

theorem dvd_iff {d p : Poly} : d ∣ p ↔ d.toPolynomial ∣ p.toPolynomial := by
  constructor
  · rintro ⟨q, rfl⟩
    rw [toPolynomial_mul]
    exact dvd_mul_right _ _
  · rintro ⟨f, hf⟩
    obtain ⟨q, rfl⟩ := toPolynomial_surjective f
    refine ⟨q, toPolynomial_injective ?_⟩
    rw [hf, toPolynomial_mul]

/-! ## Rounds of the computation -/

/-- One round: the divisor becomes the dividend and the remainder the divisor. A pair whose
second polynomial is zero is left as it is. -/
def euclidStep (s : Poly × Poly) : Poly × Poly :=
  if s.2.isZero then s else (s.2, s.1 % s.2)

theorem gcd_euclidStep (s : Poly × Poly) : (euclidStep s).1.gcd (euclidStep s).2 = s.1.gcd s.2 := by
  rw [euclidStep]
  split
  · rfl
  · rename_i hz
    conv_rhs => rw [gcd, if_neg hz]

theorem length_euclidStep_le (s : Poly × Poly) :
    (euclidStep s).2.coeffs.length ≤ s.2.coeffs.length - 1 := by
  rw [euclidStep]
  split
  · rename_i hz
    have hnil : s.2.coeffs = [] := by simpa [isZero] using hz
    rw [hnil]
    exact Nat.zero_le _
  · rename_i hz
    have hlt := length_coeffs_mod_lt s.1 s.2 (Bool.eq_false_iff.mpr hz)
    exact Nat.le_sub_one_of_lt hlt

theorem gcd_iterate_euclidStep (s : Poly × Poly) (n : Nat) :
    (euclidStep^[n] s).1.gcd (euclidStep^[n] s).2 = s.1.gcd s.2 := by
  induction n with
  | zero => rfl
  | succ n ih => rw [Function.iterate_succ_apply', gcd_euclidStep, ih]

theorem length_iterate_euclidStep_le (s : Poly × Poly) (n : Nat) :
    (euclidStep^[n] s).2.coeffs.length ≤ s.2.coeffs.length - n := by
  induction n with
  | zero => exact le_rfl
  | succ n ih =>
      -- peeled at the last round, which shortens what the rounds before it have left
      rw [Function.iterate_succ_apply']
      have hstep := length_euclidStep_le (euclidStep^[n] s)
      omega

/-- **The computation ends** after at most as many rounds as the divisor has coefficients,
and the last divisor, made monic, is the greatest common divisor. -/
theorem euclidStep_ends (p q : Poly) :
    (euclidStep^[q.coeffs.length] (p, q)).2 = zero
      ∧ p.gcd q = (euclidStep^[q.coeffs.length] (p, q)).1.monic := by
  have hlength := length_iterate_euclidStep_le (p, q) q.coeffs.length
  have hgcd := gcd_iterate_euclidStep (p, q) q.coeffs.length
  have hzero : (euclidStep^[q.coeffs.length] (p, q)).2.isZero = true := by
    rw [Nat.sub_self, Nat.le_zero, List.length_eq_zero_iff] at hlength
    rw [isZero, hlength]
    rfl
  refine ⟨(isZero_iff _).mp hzero, ?_⟩
  rw [← hgcd, gcd, if_pos hzero]

/-! ## Common divisors -/

theorem dvd_gcd {d p q : Poly} : d ∣ p.gcd q ↔ d ∣ p ∧ d ∣ q := by
  rw [dvd_iff, dvd_gcd_iff, dvd_iff, dvd_iff]

theorem gcd_dvd (p q : Poly) : p.gcd q ∣ p ∧ p.gcd q ∣ q :=
  dvd_gcd.mp (dvd_iff.mpr dvd_rfl)

theorem leadingCoeff_gcd {p q : Poly} (h : ¬(p = zero ∧ q = zero)) :
    (p.gcd q).leadingCoeff = 1 := by
  induction p, q using gcd.induct with
  | case1 p q hq =>
      have hp : p ≠ zero := fun hp => h ⟨hp, (isZero_iff q).mp hq⟩
      rw [gcd, if_pos hq]
      exact leadingCoeff_monic (isZero_eq_false_of_ne hp)
  | case2 p q hq ih =>
      rw [gcd, if_neg hq]
      exact ih fun hz => hq ((isZero_iff q).mpr hz.1)

theorem gcd_zero_zero : zero.gcd zero = zero := by
  have hz : zero.isZero = true := rfl
  rw [gcd, if_pos hz]
  decide +kernel

/-- Two monic polynomials that divide each other are equal. -/
theorem eq_of_dvd_of_dvd {p q : Poly} (hp : p.leadingCoeff = 1) (hq : q.leadingCoeff = 1)
    (hpq : p ∣ q) (hqp : q ∣ p) : p = q := by
  rw [← leadingCoeff_toPolynomial] at hp hq
  apply toPolynomial_injective
  exact eq_of_monic_of_associated hp hq (associated_of_dvd_dvd (dvd_iff.mp hpq) (dvd_iff.mp hqp))

theorem gcd_comm (p q : Poly) : p.gcd q = q.gcd p := by
  by_cases h : p = zero ∧ q = zero
  · rw [h.1, h.2]
  · -- each is a common divisor, and so divides the other
    refine eq_of_dvd_of_dvd (leadingCoeff_gcd h) (leadingCoeff_gcd (mt And.symm h)) ?_ ?_
    · exact dvd_gcd.mpr (gcd_dvd p q).symm
    · exact dvd_gcd.mpr (gcd_dvd q p).symm

/-- **The greatest common divisor** is computed by division with remainder, in at most as
many rounds as the second polynomial has coefficients. It divides both polynomials, and every
common divisor divides it. It is monic, except that it is zero for two zeros. The order of the
two polynomials does not matter, and its real roots are their common ones. -/
theorem gcd_greatest_common_divisor (p q : Poly) :
    ((euclidStep^[q.coeffs.length] (p, q)).2 = zero
        ∧ p.gcd q = (euclidStep^[q.coeffs.length] (p, q)).1.monic)
      ∧ p.gcd q ∣ p
      ∧ p.gcd q ∣ q
      ∧ (∀ d : Poly, d ∣ p → d ∣ q → d ∣ p.gcd q)
      ∧ ((p = zero ∧ q = zero) ∨ (p.gcd q).leadingCoeff = 1)
      ∧ zero.gcd zero = zero
      ∧ p.gcd q = q.gcd p
      ∧ (p.gcd q).realRoots = p.realRoots ∩ q.realRoots := by
  refine ⟨euclidStep_ends p q, (gcd_dvd p q).1, (gcd_dvd p q).2, ?_, ?_, gcd_zero_zero,
    gcd_comm p q, ?_⟩
  · intro d hp hq
    exact dvd_gcd.mpr ⟨hp, hq⟩
  · by_cases h : p = zero ∧ q = zero
    · exact .inl h
    · exact .inr (leadingCoeff_gcd h)
  · ext x
    exact realEval_gcd_eq_zero_iff p q x

end AlgebraicReals.Poly
