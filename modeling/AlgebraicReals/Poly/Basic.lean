import AlgebraicReals.Sign
import AlgebraicReals.Poly.Coeffs

set_option autoImplicit false

/-! # Polynomials

A polynomial in one variable over the rationals is the list of its coefficients,
constant term first, with no zero at the end. The last condition is part of the
type, so equal polynomials are equal lists and the degree can be read off the
length. The zero polynomial has no coefficients, and its degree counts as `0`. -/

namespace AlgebraicReals

/-- A polynomial over the rationals. -/
structure Poly where
  /-- The coefficients, constant term first. -/
  coeffs : List Rat
  /-- The leading coefficient is not `0`. -/
  trimmed : coeffs.getLast? ≠ some 0
deriving DecidableEq

namespace Poly

/-! ## Building polynomials -/

/-- The polynomial with the given coefficients, constant term first. -/
def ofCoeffs (cs : List Rat) : Poly :=
  ⟨Coeffs.trim cs, Coeffs.getLast?_trim_ne cs⟩

/-- The zero polynomial. -/
def zero : Poly :=
  ofCoeffs []

/-- A constant polynomial. -/
def const (c : Rat) : Poly :=
  ofCoeffs [c]

/-- The polynomial `c·x^k`. -/
def monomial (c : Rat) (k : Nat) : Poly :=
  ofCoeffs (List.replicate k 0 ++ [c])

/-- The polynomial `x`. -/
def X : Poly :=
  monomial 1 1

@[simp] theorem ofCoeffs_coeffs (p : Poly) : ofCoeffs p.coeffs = p := by
  cases p with
  | mk cs h => simp only [ofCoeffs, Coeffs.trim_eq_self h]

theorem length_coeffs_ofCoeffs_le (cs : List Rat) : (ofCoeffs cs).coeffs.length ≤ cs.length :=
  Coeffs.length_trim_le cs

/-! ## Coefficients and degree -/

/-- The coefficient of `x^k`. -/
def coeff (p : Poly) (k : Nat) : Rat :=
  p.coeffs.getD k 0

/-- The degree, `0` for the zero polynomial. -/
def degree (p : Poly) : Nat :=
  p.coeffs.length - 1

/-- Whether the polynomial is zero. -/
def isZero (p : Poly) : Bool :=
  p.coeffs.isEmpty

/-- Whether the polynomial is a number, `0` included. -/
def isConstant (p : Poly) : Bool :=
  p.coeffs.length ≤ 1

/-- The coefficient of the highest power, `0` for the zero polynomial. -/
def leadingCoeff (p : Poly) : Rat :=
  p.coeffs.getLastD 0

/-- The value at `0`. -/
def constantTerm (p : Poly) : Rat :=
  p.coeff 0

/-! ## Values -/

/-- The value at a rational number. -/
def eval (p : Poly) (x : Rat) : Rat :=
  Coeffs.eval p.coeffs x

/-- The sign of the value at a rational number. -/
def signAt (p : Poly) (x : Rat) : Sign :=
  Sign.ofRat (p.eval x)

/-- The sign of all values far enough to the right. -/
def signAtPosInfinity (p : Poly) : Sign :=
  Sign.ofRat p.leadingCoeff

/-- The sign of all values far enough to the left. -/
def signAtNegInfinity (p : Poly) : Sign :=
  if p.degree % 2 = 1 then -p.signAtPosInfinity else p.signAtPosInfinity

/-! ## Ring operations -/

/-- The multiple by a number. -/
def scale (c : Rat) (p : Poly) : Poly :=
  ofCoeffs (Coeffs.scale c p.coeffs)

/-- The opposite polynomial. -/
def neg (p : Poly) : Poly :=
  p.scale (-1)

/-- The sum. -/
def add (p q : Poly) : Poly :=
  ofCoeffs (Coeffs.add p.coeffs q.coeffs)

/-- The difference. -/
def sub (p q : Poly) : Poly :=
  p.add q.neg

/-- The product. -/
def mul (p q : Poly) : Poly :=
  ofCoeffs (Coeffs.mul p.coeffs q.coeffs)

/-- The derivative. -/
def derivative (p : Poly) : Poly :=
  ofCoeffs (Coeffs.weighted 1 p.coeffs.tail)

instance : Neg Poly := ⟨neg⟩

instance : Add Poly := ⟨add⟩

instance : Sub Poly := ⟨sub⟩

instance : Mul Poly := ⟨mul⟩

/-! ## Values of sums and products -/

@[simp] theorem eval_ofCoeffs (cs : List Rat) (x : Rat) :
    (ofCoeffs cs).eval x = Coeffs.eval cs x :=
  Coeffs.eval_trim cs x

@[simp] theorem eval_scale (c : Rat) (p : Poly) (x : Rat) : (p.scale c).eval x = c * p.eval x := by
  rw [scale, eval_ofCoeffs, Coeffs.eval_scale]
  rfl

@[simp] theorem eval_neg (p : Poly) (x : Rat) : (-p).eval x = -p.eval x := by
  show (p.scale (-1)).eval x = -p.eval x
  rw [eval_scale]
  grind

@[simp] theorem eval_add (p q : Poly) (x : Rat) : (p + q).eval x = p.eval x + q.eval x := by
  show (ofCoeffs (Coeffs.add p.coeffs q.coeffs)).eval x = _
  rw [eval_ofCoeffs, Coeffs.eval_add]
  rfl

@[simp] theorem eval_sub (p q : Poly) (x : Rat) : (p - q).eval x = p.eval x - q.eval x := by
  show (p + -q).eval x = _
  rw [eval_add, eval_neg]
  grind

@[simp] theorem eval_mul (p q : Poly) (x : Rat) : (p * q).eval x = p.eval x * q.eval x := by
  show (ofCoeffs (Coeffs.mul p.coeffs q.coeffs)).eval x = _
  rw [eval_ofCoeffs, Coeffs.eval_mul]
  rfl

/-! ## Length -/

theorem length_coeffs_neg_le (p : Poly) : (-p).coeffs.length ≤ p.coeffs.length := by
  refine Nat.le_trans (length_coeffs_ofCoeffs_le _) ?_
  simp [Coeffs.scale]

end Poly

end AlgebraicReals
