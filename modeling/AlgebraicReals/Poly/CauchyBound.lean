import AlgebraicReals.Rational
import AlgebraicReals.Poly.Basic

set_option autoImplicit false

/-! # Cauchy's bound on the roots

All real roots of a polynomial lie strictly between the numbers `-B` and `B`,
where `B` is one more than the largest ratio of a lower coefficient to the
leading one. -/

namespace AlgebraicReals.Poly

/-- The largest absolute value in a list of ratios, at least `0`. -/
def largestRatio (lead : Rat) : List Rat → Rat
  | [] => 0
  | c :: cs =>
    let r := Rational.magnitude c / Rational.magnitude lead
    let m := largestRatio lead cs
    if m < r then r else m

/-- A number above the absolute value of every root. -/
def cauchyBound (p : Poly) : Rat :=
  1 + largestRatio p.leadingCoeff p.coeffs.dropLast

end AlgebraicReals.Poly
