set_option autoImplicit false

/-! # Limits of refinement

How far a query may refine the numbers it is about. -/

namespace AlgebraicReals

/-- Limits of a query. -/
structure Limits where
  /-- The largest number of bisections of one query. -/
  maxRefinements : Nat := 1000
  /-- The precision that is refined to, in binary places. -/
  precisionBits : Nat := 20
deriving DecidableEq

/-- The width below which an interval is precise enough. -/
def Limits.targetWidth (limits : Limits) : Rat :=
  1 / (2 : Rat) ^ limits.precisionBits

end AlgebraicReals
