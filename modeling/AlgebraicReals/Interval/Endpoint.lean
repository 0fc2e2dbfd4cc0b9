import AlgebraicReals.Rational
import AlgebraicReals.Interval.BoundKind

set_option autoImplicit false

/-! # Endpoints

An endpoint is one side of an interval: a rational that is included or not, or
no bound at all. The same type serves both sides; whether an infinite endpoint
stands for `-∞` or `+∞` is decided by the side it is used on, which is why the
operations that need to know come in a lower and an upper form. -/

namespace AlgebraicReals

/-- One side of an interval. -/
inductive Endpoint where
  | infinite
  | finite (value : Rat) (included : Bool)
deriving DecidableEq

namespace Endpoint

/-- The number of a finite endpoint, and `0` for an infinite one. -/
def value : Endpoint → Rat
  | infinite => 0
  | finite v _ => v

/-- The number of a finite endpoint. -/
def value? : Endpoint → Option Rat
  | infinite => none
  | finite v _ => some v

/-- The kind of bound an endpoint is. -/
def kind : Endpoint → BoundKind
  | infinite => .infinite
  | finite _ true => .included
  | finite _ false => .excluded

/-- The endpoint of a given kind at a given number, which an infinite endpoint
does not keep. -/
def ofKind : BoundKind → Rat → Endpoint
  | .infinite, _ => infinite
  | .included, v => finite v true
  | .excluded, v => finite v false

@[simp] theorem ofKind_kind_value (e : Endpoint) : ofKind e.kind e.value = e := by
  cases e with
  | infinite => rfl
  | finite v included => cases included <;> rfl

@[simp] theorem kind_ofKind (k : BoundKind) (v : Rat) : (ofKind k v).kind = k := by
  cases k <;> rfl

/-- Whether the endpoint is a number. -/
def isFinite : Endpoint → Bool
  | infinite => false
  | finite _ _ => true

/-! ## Membership, one side at a time -/

/-- Whether a number is not cut off by the endpoint as a lower one. -/
def admitsAbove : Endpoint → Rat → Bool
  | infinite, _ => true
  | finite v true, x => v ≤ x
  | finite v false, x => v < x

/-- Whether a number is not cut off by the endpoint as an upper one. -/
def admitsBelow : Endpoint → Rat → Bool
  | infinite, _ => true
  | finite v true, x => x ≤ v
  | finite v false, x => x < v

/-- Whether the lower endpoint `a` admits all that the lower endpoint `b`
admits. -/
def coversAbove : Endpoint → Endpoint → Bool
  | infinite, _ => true
  | finite _ _, infinite => false
  | finite v a, finite w b => v < w || (v = w && (a || !b))

/-- Whether the upper endpoint `a` admits all that the upper endpoint `b`
admits. -/
def coversBelow : Endpoint → Endpoint → Bool
  | infinite, _ => true
  | finite _ _, infinite => false
  | finite v a, finite w b => w < v || (v = w && (a || !b))

/-! ## Arithmetic -/

/-- The endpoint mirrored at `0`. -/
def neg : Endpoint → Endpoint
  | infinite => infinite
  | finite v included => finite (-v) included

/-- The sum of two endpoints of the same side. -/
def add : Endpoint → Endpoint → Endpoint
  | finite v a, finite w b => finite (v + w) (a && b)
  | _, _ => infinite

/-- The absolute value of an endpoint. -/
def magnitude : Endpoint → Endpoint
  | infinite => infinite
  | finite v included => finite (Rational.magnitude v) included

/-- The power of an endpoint. -/
def pow : Endpoint → Nat → Endpoint
  | infinite, _ => infinite
  | finite v included, n => finite (v ^ n) included

/-- The reciprocal of an endpoint: an infinite one is approached but never
reached at `0`, and `0` itself has none. -/
def reciprocal : Endpoint → Endpoint
  | infinite => finite 0 false
  | finite v included => if v = 0 then infinite else finite (1 / v) included

@[simp] theorem neg_neg (e : Endpoint) : e.neg.neg = e := by
  cases e with
  | infinite => rfl
  | finite v included => exact congrArg (finite · included) (Rat.neg_neg v)

theorem kind_add (a b : Endpoint) : (a.add b).kind = a.kind.sum b.kind := by
  rcases a with _ | ⟨v, _ | _⟩ <;> rcases b with _ | ⟨w, _ | _⟩ <;> rfl

/-! ## Choosing between two endpoints

`outer` keeps the endpoint that admits more and `inner` the one that admits
less. At a common number the outer endpoint is attained if one of the two is, the
inner one only if both are. -/

/-- The lower endpoint of two that admits more. -/
def outerLower : Endpoint → Endpoint → Endpoint
  | finite v a, finite w b =>
    match Rational.order v w with
    | .lt => finite v a
    | .gt => finite w b
    | .eq => finite v (a || b)
  | _, _ => infinite

/-- The upper endpoint of two that admits more. -/
def outerUpper : Endpoint → Endpoint → Endpoint
  | finite v a, finite w b =>
    match Rational.order v w with
    | .gt => finite v a
    | .lt => finite w b
    | .eq => finite v (a || b)
  | _, _ => infinite

/-- The lower endpoint of two that admits less. -/
def innerLower : Endpoint → Endpoint → Endpoint
  | infinite, e => e
  | e, infinite => e
  | finite v a, finite w b =>
    match Rational.order v w with
    | .gt => finite v a
    | .lt => finite w b
    | .eq => finite v (a && b)

/-- The upper endpoint of two that admits less. -/
def innerUpper : Endpoint → Endpoint → Endpoint
  | infinite, e => e
  | e, infinite => e
  | finite v a, finite w b =>
    match Rational.order v w with
    | .lt => finite v a
    | .gt => finite w b
    | .eq => finite v (a && b)

end Endpoint

end AlgebraicReals
