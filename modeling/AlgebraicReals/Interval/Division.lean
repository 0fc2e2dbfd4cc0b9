import AlgebraicReals.Interval.Arithmetic
import AlgebraicReals.Interval.Lattice

set_option autoImplicit false

/-! # Interval division

Dividing by an interval without `0` answers one interval. Dividing by an
interval around `0` leaves out a gap, so that the quotients may fall into two
parts; `Interval.divParts` answers both. -/

namespace AlgebraicReals

/-- The parts into which the answer of a division falls. -/
inductive Parts where
  | one (part : Interval)
  | two (first second : Interval)
deriving DecidableEq

namespace Parts

/-- Whether there are two parts. -/
def isSplit : Parts → Bool
  | one _ => false
  | two _ _ => true

/-- Both parts, the second one empty if there is only one. -/
def toPair : Parts → Interval × Interval
  | one part => (part, .empty)
  | two first second => (first, second)

end Parts

namespace Interval

/-- The interval of reciprocals of an interval without `0`. -/
def reciprocal (I : Interval) : Interval :=
  if I.isEmpty then empty else ⟨I.upper.reciprocal, I.lower.reciprocal⟩

/-- The interval of quotients, if the divisor does not contain `0`. -/
def div (I J : Interval) : Except IntervalError Interval :=
  if J.contains 0 then .error .divisorContainsZero else .ok (I.mul J.reciprocal)

/-- Whether the interval reaches below `0`. -/
def hasNegative (I : Interval) : Bool :=
  !I.lower.isFinite || I.lower.value < 0

/-- Whether the interval reaches above `0`. -/
def hasPositive (I : Interval) : Bool :=
  !I.upper.isFinite || 0 < I.upper.value

/-- The reciprocals of the members other than `0`. -/
def inverse (I : Interval) : Parts :=
  if I.isEmpty then .one empty
  else if !I.contains 0 then .one I.reciprocal
  else
    let below : Interval := ⟨.infinite, I.lower.reciprocal⟩
    let above : Interval := ⟨I.upper.reciprocal, .infinite⟩
    match I.hasNegative, I.hasPositive with
    | true, true => .two below above
    | true, false => .one below
    | false, true => .one above
    | false, false => .one empty

/-- The quotients by members other than `0`. -/
def divParts (I J : Interval) : Parts :=
  match J.inverse with
  | .one inv => .one (I.mul inv)
  | .two below above =>
    let a := I.mul below
    let b := I.mul above
    if a.isEmpty then .one b
    else if b.isEmpty then .one a
    else if a.disjoint b then .two a b
    else .one (a.hull b)

end Interval

end AlgebraicReals
