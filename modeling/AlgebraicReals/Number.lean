import AlgebraicReals.IsolatedRoot.Compare

set_option autoImplicit false

/-! # Real algebraic numbers

A real algebraic number is a rational number or an isolated root. Both answer the
same queries, a rational number at once. A root whose value has been found stays
a root until `Number.simplify` turns it into that rational number. -/

namespace AlgebraicReals

/-- A real algebraic number. -/
inductive Number where
  /-- A rational number, with the mark that isolated roots carry too. -/
  | rational (value : Rat) (isRoot : Bool)
  /-- The root of a polynomial in an interval. -/
  | root (r : IsolatedRoot)

namespace Number

/-- The root of a polynomial in an interval. -/
def ofRoot (p : Poly) (I : Interval) (isRoot : Bool) : Except AlgebraicError Number :=
  (IsolatedRoot.ofPoly p I isRoot).map root

/-! ## What is known about a number -/

/-- The caller's mark: the number stands for a root of a polynomial. -/
def isRoot : Number → Bool
  | rational _ mark => mark
  | root r => r.isRoot

/-- The same number with another mark. -/
def setIsRoot (a : Number) (mark : Bool) : Number :=
  match a with
  | rational v _ => rational v mark
  | root r => root (r.setIsRoot mark)

/-- The value, if it is known exactly. -/
def value? : Number → Option Rat
  | rational v _ => some v
  | root r => r.value?

/-- Whether the value is known exactly. -/
def isNumeric (a : Number) : Bool :=
  a.value?.isSome

/-- Whether the number is held as a rational number. -/
def isRational : Number → Bool
  | rational _ _ => true
  | root _ => false

/-- The interval around a root. -/
def interval? : Number → Option Interval
  | rational _ _ => none
  | root r => some r.interval

/-- The polynomial of a root. -/
def poly? : Number → Option Poly
  | rational _ _ => none
  | root r => some r.poly

/-- The number of bisections so far. -/
def refinements : Number → Nat
  | rational _ _ => 0
  | root r => r.refinements

/-- Whether the number is `0`. -/
def isZero : Number → Bool
  | rational v _ => v = 0
  | root r => r.isZero

/-- The sign of the number. -/
def sign : Number → Sign
  | rational v _ => Sign.ofRat v
  | root r => r.sign

/-- A rational number near the number, or the number itself. -/
def approximation : Number → Rat
  | rational v _ => v
  | root r => r.approximation

/-- The text of a number. -/
def render : Number → String
  | rational v _ => Rational.render v
  | root r => r.render

/-- A root whose value is known becomes that rational number. -/
def simplify : Number → Number
  | rational v mark => rational v mark
  | root r =>
    match r.location with
    | .exact v => rational v r.isRoot
    | .between _ _ => root r

/-! ## Queries -/

/-- The sign of `q` at the number. -/
def signOf (ev : Evaluator) (q : Poly) (limits : Limits) : Number → Outcome Number Sign
  | rational v mark => .now (Sign.ofRat (ev.valueAt q v)) (rational v mark)
  | root r => (r.signOf ev q limits.maxRefinements).mapState root

/-- A number to split the line at. -/
def branchingPoint (limits : Limits) : Number → Outcome Number Rat
  | rational v mark => .now v (rational v mark)
  | root r => (r.branchingPoint limits.maxRefinements).mapState root

/-- Whether the number lies in an interval. -/
def containedIn (query : Interval) (limits : Limits) : Number → Outcome Number Bool
  | rational v mark => .now (query.contains v) (rational v mark)
  | root r => (r.containedIn query limits.maxRefinements).mapState root

/-- Refines the number to the precision asked for. -/
def refineToPrecision (limits : Limits) : Number → Outcome Number Refinement
  | rational v mark => .now .collapsed (rational v mark)
  | root r => (r.refineToPrecision limits).mapState root

/-- How two numbers compare. -/
def compare (limits : Limits) : Number → Number → Outcome (Number × Number) Ordering
  | rational v m, rational w n => .now (Rational.order v w) (rational v m, rational w n)
  | root r, rational w n =>
    (r.compareValue w limits.maxRefinements).mapState fun r' => (root r', rational w n)
  | rational v m, root r =>
    ((r.compareValue v limits.maxRefinements).map Ordering.swap).mapState
      fun r' => (rational v m, root r')
  | root r, root s =>
    (r.compare s limits.maxRefinements).mapState fun (r', s') => (root r', root s')

end Number

end AlgebraicReals
