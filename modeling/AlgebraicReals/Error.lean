import AlgebraicReals.Interval.Basic

set_option autoImplicit false

/-! # Errors of algebraic numbers

A number cannot be made from a polynomial and an interval, or a query ran out of
bisections. -/

namespace AlgebraicReals

/-- Why an operation on algebraic numbers has no answer. -/
inductive AlgebraicError where
  /-- The interval holds another number of roots than one. -/
  | nonIsolating (roots : Nat)
  /-- Every number is a root of the zero polynomial. -/
  | zeroPolynomial
  /-- The query was still open after this many bisections. -/
  | notConverged (steps : Nat)
  /-- The interval could not be formed. -/
  | interval (error : IntervalError)
deriving DecidableEq

/-- The text of an error. -/
def AlgebraicError.message : AlgebraicError → String
  | nonIsolating roots =>
    "interval is not isolating: it holds " ++ Nat.repr roots ++ " distinct real roots"
  | zeroPolynomial => "the zero polynomial does not define an algebraic number"
  | notConverged steps =>
    "refinement did not converge within " ++ Nat.repr steps ++ " steps"
  | interval error => error.message

end AlgebraicReals
