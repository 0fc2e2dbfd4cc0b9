import Mathlib
import AlgebraicReals.Poly.Division

set_option autoImplicit false

/-! # Coefficient lists as polynomials

A coefficient list stands for the element `∑ cₖ·xᵏ` of the polynomial ring over
the rationals. This module says so once for every operation on lists, so that
later modules argue in the ring and never look at a list again.

The real numbers come in here as well: `Poly.realEval` is the value of a
polynomial at a real number, and a polynomial's real roots are the zeros of that
function. -/

namespace AlgebraicReals

open Polynomial

namespace Coeffs

/-- The polynomial that a coefficient list stands for. -/
noncomputable def toPolynomial : List Rat → ℚ[X]
  | [] => 0
  | a :: p => C a + X * toPolynomial p

@[simp] theorem toPolynomial_nil : toPolynomial [] = 0 := rfl

theorem toPolynomial_cons (a : Rat) (p : List Rat) :
    toPolynomial (a :: p) = C a + X * toPolynomial p := rfl

@[simp] theorem coeff_toPolynomial (p : List Rat) (k : Nat) :
    (toPolynomial p).coeff k = p.getD k 0 := by
  induction p generalizing k with
  | nil => simp
  | cons a p ih =>
      rw [toPolynomial_cons]
      cases k with
      | zero => simp
      | succ k => simp [ih]

@[simp] theorem toPolynomial_trim (p : List Rat) : toPolynomial (trim p) = toPolynomial p := by
  induction p with
  | nil => rfl
  | cons a p ih =>
      unfold trim
      split
      · rename_i h
        have hp : toPolynomial p = 0 := by rw [← ih, h, toPolynomial_nil]
        split
        · rename_i ha
          simp [toPolynomial_cons, ha, hp]
        · simp [toPolynomial_cons, hp]
      · rename_i b q h
        rw [toPolynomial_cons a, toPolynomial_cons a, ← h, ih]

@[simp] theorem toPolynomial_add (p q : List Rat) :
    toPolynomial (add p q) = toPolynomial p + toPolynomial q := by
  induction p generalizing q with
  | nil => simp [add]
  | cons a p ih =>
      cases q with
      | nil => simp [add]
      | cons b q =>
          simp only [add, toPolynomial_cons, ih q, C_add]
          ring

@[simp] theorem toPolynomial_scale (c : Rat) (p : List Rat) :
    toPolynomial (scale c p) = C c * toPolynomial p := by
  ext k
  rw [coeff_toPolynomial, coeff_C_mul, coeff_toPolynomial, scale,
    List.getD_eq_getElem?_getD, List.getD_eq_getElem?_getD, List.getElem?_map]
  cases p[k]? with
  | none => simp
  | some a => simp

@[simp] theorem toPolynomial_mul (p q : List Rat) :
    toPolynomial (mul p q) = toPolynomial p * toPolynomial q := by
  induction p with
  | nil => simp [mul]
  | cons a p ih =>
      simp only [mul, toPolynomial_add, toPolynomial_scale, toPolynomial_cons, ih, C_0]
      ring

theorem getD_weighted (k : Nat) (p : List Rat) (j : Nat) :
    (weighted k p).getD j 0 = ((k + j : Nat) : Rat) * p.getD j 0 := by
  induction p generalizing k j with
  | nil => simp [weighted]
  | cons a p ih =>
      cases j with
      | zero => simp [weighted]
      | succ j =>
          simp only [weighted, List.getD_cons_succ, ih]
          congr 2
          omega

/-- Weighting the coefficients after the first by their place is taking the
derivative. -/
@[simp] theorem toPolynomial_weighted_tail (p : List Rat) :
    toPolynomial (weighted 1 p.tail) = derivative (toPolynomial p) := by
  ext n
  rw [coeff_toPolynomial, getD_weighted, coeff_derivative, coeff_toPolynomial]
  cases p with
  | nil => simp
  | cons a p =>
      simp only [List.tail_cons, List.getD_cons_succ]
      push_cast
      ring

theorem eval_toPolynomial (p : List Rat) (x : Rat) :
    (toPolynomial p).eval x = eval p x := by
  induction p with
  | nil => simp [eval]
  | cons a p ih => simp [toPolynomial_cons, eval, ih]

/-! ## Division

Each step of the division keeps `p = q·d + r`. The step that takes off a multiple
of the divisor cancels the leading coefficient, so nothing is lost when that
entry is dropped. -/

theorem toPolynomial_dropLast {p : List Rat} (h : p.getLastD 0 = 0) :
    toPolynomial p.dropLast = toPolynomial p := by
  induction p with
  | nil => rfl
  | cons a p ih =>
      cases p with
      | nil =>
          have ha : a = 0 := by simpa using h
          simp [toPolynomial_cons, ha]
      | cons b q =>
          rw [List.dropLast_cons_of_ne_nil (by simp), toPolynomial_cons a, toPolynomial_cons a,
            ih (by simpa using h)]

theorem getLastD_add {p q : List Rat} (h : p.length = q.length) :
    (add p q).getLastD 0 = p.getLastD 0 + q.getLastD 0 := by
  induction p generalizing q with
  | nil =>
      cases q with
      | nil => simp [add]
      | cons b q => simp at h
  | cons a p ih =>
      cases q with
      | nil => simp at h
      | cons b q =>
          have hlen : p.length = q.length := by simpa using h
          cases p with
          | nil =>
              have hq : q = [] := List.length_eq_zero_iff.mp hlen.symm
              simp [add, hq]
          | cons c p =>
              cases q with
              | nil => simp at hlen
              | cons d q => simpa [add] using ih hlen

theorem length_add {p q : List Rat} (h : p.length = q.length) :
    (add p q).length = p.length := by
  induction p generalizing q with
  | nil =>
      cases q with
      | nil => rfl
      | cons b q => simp at h
  | cons a p ih =>
      cases q with
      | nil => simp at h
      | cons b q => simpa [add] using ih (by simpa using h)

theorem getLastD_eq_getD (p : List Rat) : p.getLastD 0 = p.getD (p.length - 1) 0 := by
  rw [List.getLastD_eq_getLast?, List.getLast?_eq_getElem?, List.getD_eq_getElem?_getD]

theorem getLastD_scale (c : Rat) (p : List Rat) :
    (scale c p).getLastD 0 = c * p.getLastD 0 := by
  rw [List.getLastD_eq_getLast?, List.getLastD_eq_getLast?, scale, List.getLast?_map]
  cases p.getLast? with
  | none => simp
  | some a => simp

/-- **Division loses nothing.** Quotient times divisor plus remainder is the
dividend, for every divisor whose last coefficient is not zero. -/
theorem toPolynomial_divMod {d : List Rat} (hd : d.getLastD 0 ≠ 0) (p : List Rat) :
    toPolynomial p
      = toPolynomial (divMod d p).1 * toPolynomial d + toPolynomial (divMod d p).2 := by
  have hne : d ≠ [] := by
    rintro rfl
    exact hd rfl
  induction p with
  | nil => simp [divMod]
  | cons a p ih =>
      have hlen := length_divMod_snd_lt d p hne
      simp only [divMod]
      -- only the two facts about the recursive call matter from here on
      generalize divMod d p = qr at ih hlen ⊢
      obtain ⟨q, r⟩ := qr
      simp only at ih hlen ⊢
      split
      · simp only [toPolynomial_cons, ih, C_0]
        ring
      · rename_i hge
        set f := (a :: r).getLastD 0 / d.getLastD 0 with hf
        have hsame : (a :: r).length = (scale (-f) d).length := by
          simp only [List.length_cons, scale, List.length_map]
          omega
        -- the multiple of the divisor is chosen to cancel the last coefficient
        have hlast : (add (a :: r) (scale (-f) d)).getLastD 0 = 0 := by
          rw [getLastD_add hsame, getLastD_scale, hf]
          field_simp
          ring
        -- so that cutting it off, which is what `take` does, loses nothing
        have htake : (add (a :: r) (scale (-f) d)).take (d.length - 1)
            = (add (a :: r) (scale (-f) d)).dropLast := by
          rw [List.dropLast_eq_take, length_add hsame, hsame]
          simp [scale]
        rw [htake, toPolynomial_dropLast hlast, toPolynomial_add, toPolynomial_scale]
        simp only [toPolynomial_cons, ih, C_neg]
        ring

end Coeffs

namespace Poly

/-! ## Polynomials -/

/-- The polynomial as an element of the polynomial ring. -/
noncomputable def toPolynomial (p : Poly) : ℚ[X] :=
  Coeffs.toPolynomial p.coeffs

@[simp] theorem coeff_toPolynomial (p : Poly) (k : Nat) : p.toPolynomial.coeff k = p.coeff k :=
  Coeffs.coeff_toPolynomial p.coeffs k

@[simp] theorem toPolynomial_ofCoeffs (cs : List Rat) :
    (ofCoeffs cs).toPolynomial = Coeffs.toPolynomial cs :=
  Coeffs.toPolynomial_trim cs

@[simp] theorem toPolynomial_zero : zero.toPolynomial = 0 := rfl

@[simp] theorem toPolynomial_scale (c : Rat) (p : Poly) :
    (p.scale c).toPolynomial = C c * p.toPolynomial := by
  rw [scale, toPolynomial_ofCoeffs, Coeffs.toPolynomial_scale]
  rfl

@[simp] theorem toPolynomial_neg (p : Poly) : (-p).toPolynomial = -p.toPolynomial := by
  show (p.scale (-1)).toPolynomial = -p.toPolynomial
  rw [toPolynomial_scale, C_neg, C_1, neg_one_mul]

@[simp] theorem toPolynomial_add (p q : Poly) :
    (p + q).toPolynomial = p.toPolynomial + q.toPolynomial := by
  show (ofCoeffs (Coeffs.add p.coeffs q.coeffs)).toPolynomial = _
  rw [toPolynomial_ofCoeffs, Coeffs.toPolynomial_add]
  rfl

@[simp] theorem toPolynomial_mul (p q : Poly) :
    (p * q).toPolynomial = p.toPolynomial * q.toPolynomial := by
  show (ofCoeffs (Coeffs.mul p.coeffs q.coeffs)).toPolynomial = _
  rw [toPolynomial_ofCoeffs, Coeffs.toPolynomial_mul]
  rfl

@[simp] theorem toPolynomial_derivative (p : Poly) :
    p.derivative.toPolynomial = Polynomial.derivative p.toPolynomial := by
  rw [derivative, toPolynomial_ofCoeffs, Coeffs.toPolynomial_weighted_tail]
  rfl

theorem eval_toPolynomial (p : Poly) (x : Rat) : p.toPolynomial.eval x = p.eval x :=
  Coeffs.eval_toPolynomial p.coeffs x

/-! ## Degree

The leading coefficient is the last entry of the list, and it is not zero: this
is where the missing zeros at the end of the list are used. -/

theorem isZero_iff (p : Poly) : p.isZero = true ↔ p = zero := by
  constructor
  · intro h
    have hnil : p.coeffs = [] := by simpa [isZero] using h
    rw [← ofCoeffs_coeffs p, hnil]
    rfl
  · rintro rfl
    rfl

theorem isZero_eq_false_of_ne {p : Poly} (hp : p ≠ zero) : p.isZero = false :=
  Bool.eq_false_iff.mpr (mt (isZero_iff p).mp hp)

theorem leadingCoeff_ne_zero {p : Poly} (hp : p.isZero = false) : p.leadingCoeff ≠ 0 := by
  have hne : p.coeffs ≠ [] := by simpa [isZero] using hp
  have hlast := p.trimmed
  rw [List.getLast?_eq_some_getLast hne] at hlast
  intro h
  apply hlast
  rw [leadingCoeff, List.getLastD_eq_getLast?, List.getLast?_eq_some_getLast hne] at h
  exact congrArg some h

theorem coeff_degree (p : Poly) : p.coeff p.degree = p.leadingCoeff :=
  (Coeffs.getLastD_eq_getD p.coeffs).symm

theorem toPolynomial_eq_zero_iff (p : Poly) : p.toPolynomial = 0 ↔ p.isZero = true := by
  constructor
  · intro h
    by_contra hz
    have hlead := leadingCoeff_ne_zero (Bool.eq_false_iff.mpr hz)
    rw [← coeff_degree, ← coeff_toPolynomial, h, Polynomial.coeff_zero] at hlead
    exact hlead rfl
  · intro h
    have hnil : p.coeffs = [] := by simpa [isZero] using h
    rw [toPolynomial, hnil, Coeffs.toPolynomial_nil]

theorem toPolynomial_ne_zero {p : Poly} (hp : p.isZero = false) : p.toPolynomial ≠ 0 := by
  rw [Ne, toPolynomial_eq_zero_iff, hp]
  exact Bool.false_ne_true

@[simp] theorem natDegree_toPolynomial (p : Poly) : p.toPolynomial.natDegree = p.degree := by
  cases hz : p.isZero with
  | true =>
      have hnil : p.coeffs = [] := by simpa [isZero] using hz
      rw [(toPolynomial_eq_zero_iff p).mpr hz, degree, hnil]
      rfl
  | false =>
      refine natDegree_eq_of_le_of_coeff_ne_zero ?_ ?_
      · refine natDegree_le_iff_coeff_eq_zero.mpr fun k hk => ?_
        rw [coeff_toPolynomial, coeff]
        refine List.getD_eq_default _ _ ?_
        rw [degree] at hk
        omega
      · rw [coeff_toPolynomial, coeff_degree]
        exact leadingCoeff_ne_zero hz

@[simp] theorem leadingCoeff_toPolynomial (p : Poly) :
    p.toPolynomial.leadingCoeff = p.leadingCoeff := by
  rw [Polynomial.leadingCoeff, natDegree_toPolynomial, coeff_toPolynomial, coeff_degree]

/-- A polynomial is a number exactly if its degree is zero. -/
theorem isConstant_iff (p : Poly) : p.isConstant = true ↔ p.degree = 0 := by
  rw [isConstant, degree, decide_eq_true_iff]
  omega

theorem toPolynomial_of_isConstant {p : Poly} (hp : p.isConstant = true) :
    p.toPolynomial = C p.constantTerm := by
  have hdeg : p.toPolynomial.natDegree = 0 := by
    rw [natDegree_toPolynomial]
    exact (isConstant_iff p).mp hp
  rw [eq_C_of_natDegree_eq_zero hdeg, coeff_toPolynomial]
  rfl

/-! ## The elements of the polynomial ring

Every element of the ring is a polynomial in exactly one way, since the list of coefficients
ends with the leading one. -/

theorem toPolynomial_injective : Function.Injective toPolynomial := by
  intro p q h
  have hzero : p.coeffs.length = 0 ↔ q.coeffs.length = 0 := by
    have hiff := (toPolynomial_eq_zero_iff p).symm.trans ((Eq.congr_left h).trans
      (toPolynomial_eq_zero_iff q))
    simpa [isZero] using hiff
  have hdegree : p.degree = q.degree := by
    rw [← natDegree_toPolynomial, h, natDegree_toPolynomial]
  have hlength : p.coeffs.length = q.coeffs.length := by
    rw [degree, degree] at hdegree
    omega
  have hcoeffs : p.coeffs = q.coeffs := by
    refine List.ext_getElem hlength fun k hp hq => ?_
    have hk : p.coeff k = q.coeff k := by
      rw [← coeff_toPolynomial, h, coeff_toPolynomial]
    rwa [coeff, coeff, List.getD_eq_getElem _ _ hp, List.getD_eq_getElem _ _ hq] at hk
  rw [← ofCoeffs_coeffs p, hcoeffs, ofCoeffs_coeffs]

theorem toPolynomial_surjective : Function.Surjective toPolynomial := by
  intro f
  refine ⟨ofCoeffs ((List.range (f.natDegree + 1)).map f.coeff), ?_⟩
  ext k
  rw [toPolynomial_ofCoeffs, Coeffs.coeff_toPolynomial, List.getD_eq_getElem?_getD,
    List.getElem?_map]
  by_cases hk : k < f.natDegree + 1
  · rw [List.getElem?_range hk]
    rfl
  · rw [List.getElem?_eq_none (by simpa using hk)]
    exact (coeff_eq_zero_of_natDegree_lt (by omega)).symm

/-! ## Values at real numbers -/

/-- The value at a real number. -/
noncomputable def realEval (p : Poly) (x : ℝ) : ℝ :=
  aeval x p.toPolynomial

/-- The real roots. -/
def realRoots (p : Poly) : Set ℝ :=
  {x | p.realEval x = 0}

theorem mem_realRoots (p : Poly) (x : ℝ) : x ∈ p.realRoots ↔ p.realEval x = 0 := Iff.rfl

@[simp] theorem realEval_ratCast (p : Poly) (x : Rat) : p.realEval x = (p.eval x : ℝ) := by
  rw [realEval, ← eval_toPolynomial]
  exact aeval_algebraMap_apply_eq_algebraMap_eval x p.toPolynomial

theorem realEval_ofCoeffs_nil (x : ℝ) : (ofCoeffs []).realEval x = 0 := by
  simp [realEval]

theorem realEval_ofCoeffs_cons (a : Rat) (cs : List Rat) (x : ℝ) :
    (ofCoeffs (a :: cs)).realEval x = a + x * (ofCoeffs cs).realEval x := by
  simp [realEval, Coeffs.toPolynomial_cons]

theorem isZero_of_realEval_ne_zero {p : Poly} {x : ℝ} (hx : p.realEval x ≠ 0) :
    p.isZero = false := by
  by_contra h
  have h0 : p.toPolynomial = 0 := (toPolynomial_eq_zero_iff p).mpr (Bool.not_eq_false _ ▸ h)
  rw [realEval, h0, map_zero] at hx
  exact hx rfl

theorem continuous_realEval (p : Poly) : Continuous p.realEval :=
  p.toPolynomial.continuous_aeval

theorem realEval_of_isConstant {p : Poly} (hp : p.isConstant = true) (x : ℝ) :
    p.realEval x = p.constantTerm := by
  rw [realEval, toPolynomial_of_isConstant hp, aeval_C]
  rfl

end Poly

end AlgebraicReals
