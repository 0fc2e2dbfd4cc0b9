import Mathlib
import AlgebraicReals.Proofs.Poly.ToPolynomial

set_option autoImplicit false

/-! # Division, common divisors and multiple roots

Division leaves a remainder of smaller degree, the greatest common divisor is
divided by exactly the common divisors, and the square-free part of a polynomial
has the same roots as the polynomial, each of them once. The last statement has
two halves. No square divides the square-free part, because a power that divides
`p` divides the derivative with one factor less. And no root gets lost, because
at a root the derivative has a smaller multiplicity than `p`. -/

namespace AlgebraicReals.Poly

open Polynomial

/-! ## Division -/

theorem toPolynomial_div_add_mod (p d : Poly) (hd : d.isZero = false) :
    p.toPolynomial = (p / d).toPolynomial * d.toPolynomial + (p % d).toPolynomial := by
  have hlast : d.coeffs.getLastD 0 ≠ 0 := leadingCoeff_ne_zero hd
  show p.toPolynomial
    = (p.divMod d).1.toPolynomial * d.toPolynomial + (p.divMod d).2.toPolynomial
  simp only [divMod, hd, Bool.false_eq_true, if_false, toPolynomial_ofCoeffs]
  exact Coeffs.toPolynomial_divMod hlast p.coeffs

theorem degree_toPolynomial_lt {r d : Poly} (hd : d.isZero = false)
    (h : r.coeffs.length < d.coeffs.length) :
    r.toPolynomial.degree < d.toPolynomial.degree := by
  rw [degree_eq_natDegree (toPolynomial_ne_zero hd), natDegree_toPolynomial,
    Polynomial.degree_lt_iff_coeff_zero]
  intro k hk
  rw [coeff_toPolynomial, coeff]
  refine List.getD_eq_default _ _ ?_
  rw [degree] at hk
  omega

theorem degree_toPolynomial_mod_lt (p d : Poly) (hd : d.isZero = false) :
    (p % d).toPolynomial.degree < d.toPolynomial.degree :=
  degree_toPolynomial_lt hd (length_coeffs_mod_lt p d hd)

/-- Division by a divisor leaves nothing. -/
theorem toPolynomial_div_mul_cancel {p d : Poly} (hd : d.isZero = false)
    (h : d.toPolynomial ∣ p.toPolynomial) :
    (p / d).toPolynomial * d.toPolynomial = p.toPolynomial := by
  have hdiv := toPolynomial_div_add_mod p d hd
  have hmod : d.toPolynomial ∣ (p % d).toPolynomial := by
    rw [hdiv] at h
    exact (dvd_add_right (Dvd.intro_left _ rfl)).mp h
  rw [eq_zero_of_dvd_of_degree_lt hmod (degree_toPolynomial_mod_lt p d hd), add_zero] at hdiv
  exact hdiv.symm

/-! ## The greatest common divisor -/

theorem toPolynomial_monic (p : Poly) :
    p.monic.toPolynomial = C (1 / p.leadingCoeff) * p.toPolynomial := by
  rw [monic, toPolynomial_scale]

theorem associated_monic (p : Poly) : Associated p.monic.toPolynomial p.toPolynomial := by
  cases hz : p.isZero with
  | true =>
      have hp : p.toPolynomial = 0 := (toPolynomial_eq_zero_iff p).mpr hz
      rw [toPolynomial_monic, hp, mul_zero]
  | false =>
      have hunit : IsUnit (C (1 / p.leadingCoeff)) :=
        isUnit_C.mpr (isUnit_iff_ne_zero.mpr (one_div_ne_zero (leadingCoeff_ne_zero hz)))
      rw [toPolynomial_monic]
      exact associated_unit_mul_left _ _ hunit

theorem leadingCoeff_monic {p : Poly} (hp : p.isZero = false) : p.monic.leadingCoeff = 1 := by
  rw [← leadingCoeff_toPolynomial, toPolynomial_monic, leadingCoeff_mul, leadingCoeff_C,
    leadingCoeff_toPolynomial]
  exact one_div_mul_cancel (leadingCoeff_ne_zero hp)

/-- **The divisors of the greatest common divisor are the common divisors.** Each
division keeps them, as it changes one of the two polynomials by a multiple of
the other. -/
theorem dvd_gcd_iff (f : ℚ[X]) (p q : Poly) :
    f ∣ (p.gcd q).toPolynomial ↔ f ∣ p.toPolynomial ∧ f ∣ q.toPolynomial := by
  induction p, q using gcd.induct with
  | case1 p q hq =>
      rw [gcd, if_pos hq, (toPolynomial_eq_zero_iff q).mpr hq,
        (associated_monic p).dvd_iff_dvd_right]
      simp
  | case2 p q hq ih =>
      rw [gcd, if_neg hq, ih]
      -- `p` and the remainder differ by a multiple of `q`
      have hdiv := toPolynomial_div_add_mod p q (Bool.eq_false_iff.mpr hq)
      constructor
      · rintro ⟨h, hmod⟩
        refine ⟨?_, h⟩
        rw [hdiv]
        exact dvd_add (h.mul_left _) hmod
      · rintro ⟨hp, h⟩
        refine ⟨h, ?_⟩
        rw [hdiv] at hp
        exact (dvd_add_right (h.mul_left _)).mp hp

theorem gcd_isZero {p : Poly} (hp : p.isZero = false) (q : Poly) : (p.gcd q).isZero = false := by
  by_contra h
  have h0 : (p.gcd q).toPolynomial = 0 :=
    (toPolynomial_eq_zero_iff _).mpr (Bool.not_eq_false _ ▸ h)
  have hdvd := ((dvd_gcd_iff _ p q).mp dvd_rfl).1
  rw [h0, zero_dvd_iff] at hdvd
  exact toPolynomial_ne_zero hp hdvd

/-- The roots of the greatest common divisor are the common roots. -/
theorem realEval_gcd_eq_zero_iff (p q : Poly) (x : ℝ) :
    (p.gcd q).realEval x = 0 ↔ p.realEval x = 0 ∧ q.realEval x = 0 := by
  induction p, q using gcd.induct with
  | case1 p q hq =>
      have hq0 : q.realEval x = 0 := by
        rw [realEval, (toPolynomial_eq_zero_iff q).mpr hq, map_zero]
      rw [gcd, if_pos hq, and_iff_left hq0]
      have hass := (associated_monic p).map (aeval x)
      exact hass.eq_zero_iff
  | case2 p q hq ih =>
      have hdiv := congrArg (aeval x) (toPolynomial_div_add_mod p q (Bool.eq_false_iff.mpr hq))
      rw [map_add, map_mul] at hdiv
      rw [gcd, if_neg hq, ih, and_comm (a := p.realEval x = 0)]
      refine and_congr_right fun hq0 => ?_
      have hq0 : aeval x q.toPolynomial = 0 := hq0
      rw [hq0, mul_zero, zero_add] at hdiv
      rw [realEval, realEval, hdiv]

/-! ## The square-free part -/

/-- The polynomial is the product of the greatest common divisor with its
derivative and, up to a factor, the square-free part. -/
theorem squareFreePart_mul_gcd {p : Poly} (hp : p.isZero = false) :
    ∃ u : ℚ[X], IsUnit u ∧
      p.toPolynomial
        = u * p.squareFreePart.toPolynomial * (p.gcd p.derivative).toPolynomial := by
  have hdvd := ((dvd_gcd_iff _ p p.derivative).mp dvd_rfl).1
  have hcancel := toPolynomial_div_mul_cancel (gcd_isZero hp p.derivative) hdvd
  obtain ⟨u, hu⟩ := associated_monic (p / p.gcd p.derivative)
  refine ⟨u, u.isUnit, ?_⟩
  rw [squareFreePart, mul_comm (u : ℚ[X]), hu, hcancel]

theorem squareFreePart_dvd {p : Poly} (hp : p.isZero = false) :
    p.squareFreePart.toPolynomial ∣ p.toPolynomial := by
  obtain ⟨u, -, hu⟩ := squareFreePart_mul_gcd hp
  rw [hu, mul_comm u, mul_assoc]
  exact dvd_mul_right _ _

theorem squareFreePart_isZero {p : Poly} (hp : p.isZero = false) :
    p.squareFreePart.isZero = false := by
  by_contra h
  have h0 : p.squareFreePart.toPolynomial = 0 :=
    (toPolynomial_eq_zero_iff _).mpr (Bool.not_eq_false _ ▸ h)
  have hdvd := squareFreePart_dvd hp
  rw [h0, zero_dvd_iff] at hdvd
  exact toPolynomial_ne_zero hp hdvd

theorem monic_squareFreePart {p : Poly} (hp : p.isZero = false) :
    p.squareFreePart.toPolynomial.Monic := by
  have hne : (p / p.gcd p.derivative).isZero = false := by
    by_contra h
    have h0 : (p / p.gcd p.derivative).toPolynomial = 0 :=
      (toPolynomial_eq_zero_iff _).mpr (Bool.not_eq_false _ ▸ h)
    have hsf := toPolynomial_ne_zero (squareFreePart_isZero hp)
    rw [squareFreePart, toPolynomial_monic, h0, mul_zero] at hsf
    exact hsf rfl
  rw [Monic, leadingCoeff_toPolynomial]
  exact leadingCoeff_monic hne

/-- If the square of `f` divided the square-free part, every power of `f` would
divide the polynomial: a power that divides it also divides the derivative, but
for one factor, and so the greatest common divisor, which leaves two more factors
in the square-free part. -/
theorem pow_dvd_of_sq_dvd_squareFreePart {p : Poly} (hp : p.isZero = false) {f : ℚ[X]}
    (hf : f * f ∣ p.squareFreePart.toPolynomial) (n : Nat) : f ^ n ∣ p.toPolynomial := by
  obtain ⟨u, -, hu⟩ := squareFreePart_mul_gcd hp
  induction n with
  | zero => simp
  | succ n ih =>
      have hderiv : f ^ (n - 1) ∣ p.derivative.toPolynomial := by
        rw [toPolynomial_derivative]
        exact pow_sub_one_dvd_derivative_of_pow_dvd ih
      have hgcd : f ^ (n - 1) ∣ (p.gcd p.derivative).toPolynomial :=
        (dvd_gcd_iff _ _ _).mpr ⟨(pow_dvd_pow f (Nat.sub_le n 1)).trans ih, hderiv⟩
      -- two factors from the square-free part, the others from the divisor
      have hle : n + 1 ≤ 2 + (n - 1) := by omega
      have hmul : f ^ 2 * f ^ (n - 1) ∣ p.toPolynomial := by
        rw [hu, sq]
        exact mul_dvd_mul (hf.mul_left u) hgcd
      rw [← pow_add] at hmul
      exact (pow_dvd_pow f hle).trans hmul

theorem squarefree_squareFreePart {p : Poly} (hp : p.isZero = false) :
    Squarefree p.squareFreePart.toPolynomial := by
  intro f hf
  by_contra hunit
  have hfin : FiniteMultiplicity f p.toPolynomial :=
    FiniteMultiplicity.of_not_isUnit hunit (toPolynomial_ne_zero hp)
  exact hfin.not_pow_dvd_of_multiplicity_lt (Nat.lt_succ_self _)
    (pow_dvd_of_sq_dvd_squareFreePart hp hf _)

/-- The square-free part has no root in common with its derivative. -/
theorem separable_squareFreePart {p : Poly} (hp : p.isZero = false) :
    IsCoprime p.squareFreePart.toPolynomial p.squareFreePart.derivative.toPolynomial := by
  rw [toPolynomial_derivative]
  exact PerfectField.separable_iff_squarefree.mpr (squarefree_squareFreePart hp)

/-- A factor of `f` keeps a root of `f` if the cofactor divides the derivative:
the derivative has the root less often than `f`, so the cofactor cannot have taken
all of them. -/
theorem isRoot_of_cofactor_dvd_derivative {K : Type*} [Field K] [CharZero K] {f g h : K[X]}
    (hf : f ≠ 0) (hfg : f = h * g) (hg : g ∣ Polynomial.derivative f) {x : K}
    (hx : f.IsRoot x) : h.IsRoot x := by
  by_contra hne
  have hpos : 0 < f.rootMultiplicity x := (rootMultiplicity_pos hf).mpr hx
  have hdvd : (Polynomial.X - C x) ^ f.rootMultiplicity x ∣ h * g := by
    rw [← hfg]
    exact pow_rootMultiplicity_dvd f x
  have hcop : IsCoprime ((Polynomial.X - C x) ^ f.rootMultiplicity x) h :=
    IsCoprime.pow_left
      ((irreducible_X_sub_C x).coprime_iff_not_dvd.mpr fun h => hne (dvd_iff_isRoot.mp h))
  -- the cofactor has taken the whole power of `X - x`, and passes it on
  have hderiv := (hcop.dvd_of_dvd_mul_left hdvd).trans hg
  have hd0 : Polynomial.derivative f ≠ 0 := by
    intro h0
    -- then `f` is a number, and `0` as it has a root
    have hconst := eq_C_of_natDegree_eq_zero (Polynomial.derivative_eq_zero.mp h0)
    rw [hconst, IsRoot, eval_C] at hx
    rw [hx, C_0] at hconst
    exact hf hconst
  have hle := (le_rootMultiplicity_iff hd0).mpr hderiv
  rw [derivative_rootMultiplicity_of_root hx] at hle
  omega

/-- **The square-free part keeps the roots**, in every field around the
rationals. -/
theorem aeval_squareFreePart_eq_zero_iff {K : Type*} [Field K] [Algebra ℚ K]
    {p : Poly} (hp : p.isZero = false) (x : K) :
    aeval x p.squareFreePart.toPolynomial = 0 ↔ aeval x p.toPolynomial = 0 := by
  have : CharZero K := algebraRat.charZero K
  obtain ⟨u, hunit, hu⟩ := squareFreePart_mul_gcd hp
  constructor
  · intro h
    rw [hu, map_mul, map_mul, h, mul_zero, zero_mul]
  · intro hroot
    have hdd : (p.gcd p.derivative).toPolynomial ∣ Polynomial.derivative p.toPolynomial := by
      rw [← toPolynomial_derivative]
      exact ((dvd_gcd_iff _ p p.derivative).mp dvd_rfl).2
    have hmap := congrArg (Polynomial.map (algebraMap ℚ K)) hu
    rw [Polynomial.map_mul] at hmap
    have hkeep : (Polynomial.map (algebraMap ℚ K) (u * p.squareFreePart.toPolynomial)).IsRoot x := by
      refine isRoot_of_cofactor_dvd_derivative ?_ hmap ?_ ?_
      · exact (Polynomial.map_ne_zero_iff (algebraMap ℚ K).injective).mpr (toPolynomial_ne_zero hp)
      · rw [derivative_map]
        exact Polynomial.map_dvd _ hdd
      · rw [IsRoot, eval_map_algebraMap, hroot]
    rw [IsRoot, eval_map_algebraMap, map_mul] at hkeep
    exact (mul_eq_zero.mp hkeep).resolve_left (hunit.map (aeval x)).ne_zero

theorem realRoots_squareFreePart {p : Poly} (hp : p.isZero = false) :
    p.squareFreePart.realRoots = p.realRoots := by
  ext x
  exact aeval_squareFreePart_eq_zero_iff hp x

end AlgebraicReals.Poly
