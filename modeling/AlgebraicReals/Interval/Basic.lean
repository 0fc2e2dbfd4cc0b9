import AlgebraicReals.Interval.Endpoint

set_option autoImplicit false

/-! # Intervals

An interval of the real line with rational or infinite bounds, each finite one
included or excluded. The data is just a lower and an upper endpoint. Nothing in
it keeps the bounds from crossing, so that the rule is a statement about the
operations and not about the type: `Interval.ofEndpoints` refuses crossed
bounds, and `Interval.WellFormed` says that they do not cross.

An interval such as `(3, 3)` is well-formed and empty; the empty interval that
operations answer with is `(0, 0)`. -/

namespace AlgebraicReals

/-- Why an interval operation has no answer. -/
inductive IntervalError where
  /-- The lower bound lies above the upper one. -/
  | crossedBounds (lower upper : Rat)
  /-- The divisor contains `0`. -/
  | divisorContainsZero
deriving DecidableEq

/-- The text of an interval error. -/
def IntervalError.message : IntervalError → String
  | crossedBounds l u =>
    "interval bounds cross: " ++ Rational.render l ++ " > " ++ Rational.render u
  | divisorContainsZero => "division by an interval containing zero"

/-- An interval, given by its two ends. -/
structure Interval where
  /-- Where the interval starts; infinite means `-∞`. -/
  lower : Endpoint
  /-- Where the interval ends; infinite means `+∞`. -/
  upper : Endpoint
deriving DecidableEq

namespace Interval

/-! ## Building intervals -/

/-- The bounds do not cross. -/
def WellFormed (I : Interval) : Prop :=
  match I.lower, I.upper with
  | .finite l _, .finite u _ => l ≤ u
  | _, _ => True

instance (I : Interval) : Decidable I.WellFormed := by
  unfold WellFormed
  split <;> infer_instance

/-- The interval between two endpoints, refused if they are numbers that
cross. -/
def ofEndpoints : Endpoint → Endpoint → Except IntervalError Interval
  | .finite l a, .finite u b =>
    if u < l then .error (.crossedBounds l u) else .ok ⟨.finite l a, .finite u b⟩
  | lower, upper => .ok ⟨lower, upper⟩

/-- The interval `[x, x]`. -/
def point (x : Rat) : Interval :=
  ⟨.finite x true, .finite x true⟩

/-- The interval `(l, u)`. -/
def between (l u : Rat) : Interval :=
  ⟨.finite l false, .finite u false⟩

/-- The interval `(0, 0)`, the empty interval that operations answer with. -/
def empty : Interval :=
  between 0 0

/-- The whole real line. -/
def line : Interval :=
  ⟨.infinite, .infinite⟩

/-! ## Shape -/

/-- Whether the interval has no members: both ends are numbers, and they leave
no room. -/
def isEmpty (I : Interval) : Bool :=
  match I.lower, I.upper with
  | .finite l a, .finite u b => !(l < u || (l = u && a && b))
  | _, _ => false

/-- Whether the interval has no bound on either side. -/
def isUnbounded (I : Interval) : Bool :=
  !I.lower.isFinite && !I.upper.isFinite

/-- Whether the interval has a bound on exactly one side. -/
def isHalfUnbounded (I : Interval) : Bool :=
  I.lower.isFinite != I.upper.isFinite

/-- Whether the interval has a bound on both sides. -/
def isBounded (I : Interval) : Bool :=
  I.lower.isFinite && I.upper.isFinite

/-- The only member of an interval `[x, x]`. -/
def point? (I : Interval) : Option Rat :=
  match I.lower, I.upper with
  | .finite l true, .finite u true => if l = u then some l else none
  | _, _ => none

/-- Whether the interval has the form `[x, x]`. -/
def isPoint (I : Interval) : Bool :=
  I.point?.isSome

/-- The bounds that are numbers, the lower one first. -/
def bounds (I : Interval) : List Rat :=
  I.lower.value?.toList ++ I.upper.value?.toList

/-! ## Membership and inclusion -/

/-- Whether a rational lies in the interval. -/
def contains (I : Interval) (x : Rat) : Bool :=
  I.lower.admitsAbove x && I.upper.admitsBelow x

/-- Whether a rational lies between the bounds or on one of them, included or
not. -/
def closureContains (I : Interval) (x : Rat) : Bool :=
  (!I.lower.isFinite || I.lower.value ≤ x) && (!I.upper.isFinite || x ≤ I.upper.value)

/-- Whether the second interval is a subset of the first. -/
def includes (I J : Interval) : Bool :=
  J.isEmpty ||
    (!I.isEmpty && I.lower.coversAbove J.lower && I.upper.coversBelow J.upper)

/-- Whether the lower bound is at most the other's, included or not. -/
def reachesBelow (I J : Interval) : Bool :=
  match I.lower, J.lower with
  | .infinite, _ => true
  | .finite _ _, .infinite => false
  | .finite v _, .finite w _ => v ≤ w

/-- Whether the upper bound is at least the other's, included or not. -/
def reachesAbove (I J : Interval) : Bool :=
  match I.upper, J.upper with
  | .infinite, _ => true
  | .finite _ _, .infinite => false
  | .finite v _, .finite w _ => w ≤ v

/-! ## Measures -/

/-- The common sign of all members, and `zero` if they have none in common or
there are none. -/
def sign (I : Interval) : Sign :=
  if I.isEmpty then .zero
  else if !I.upper.admitsBelow 0 then .negative
  else if !I.lower.admitsAbove 0 then .positive
  else .zero

/-- The midpoint of a bounded interval; otherwise `0` or the number one unit
inside the only bound. -/
def midpoint (I : Interval) : Rat :=
  match I.lower, I.upper with
  | .finite l _, .finite u _ => Rational.midpoint l u
  | .infinite, .infinite => 0
  | .infinite, .finite u _ => u - 1
  | .finite l _, .infinite => l + 1

/-- The distance of the bounds, if there are two. -/
def width? (I : Interval) : Option Rat :=
  match I.lower, I.upper with
  | .finite l _, .finite u _ => some (u - l)
  | _, _ => none

end Interval

end AlgebraicReals
