import AlgebraicReals.Interval.Basic

set_option autoImplicit false

/-! # Text of intervals

Square brackets include a bound, round ones exclude it, and infinite bounds are
written `-inf` and `inf` inside round brackets. -/

namespace AlgebraicReals

/-- The opening half of an interval's text. -/
def Endpoint.renderLower : Endpoint → String
  | infinite => "(-inf"
  | finite v true => "[" ++ Rational.render v
  | finite v false => "(" ++ Rational.render v

/-- The closing half of an interval's text. -/
def Endpoint.renderUpper : Endpoint → String
  | infinite => "inf)"
  | finite v true => Rational.render v ++ "]"
  | finite v false => Rational.render v ++ ")"

/-- The text of an interval, such as `[1/2, inf)`. -/
def Interval.render (I : Interval) : String :=
  I.lower.renderLower ++ ", " ++ I.upper.renderUpper

end AlgebraicReals
