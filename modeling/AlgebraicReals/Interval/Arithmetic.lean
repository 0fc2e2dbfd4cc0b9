import AlgebraicReals.Interval.Basic

set_option autoImplicit false

/-! # Interval arithmetic

Each operation answers the set of results of the operation on members, again as
an interval, with every bound included exactly if it is such a result. Sums and
differences work bound by bound. A product is spanned by the four products of
bounds, its *corners*; they live on the extended line, where a bound `0` times an
infinite bound is `0` because every number of that side of the product is. -/

namespace AlgebraicReals

namespace Interval

/-- The interval of opposite numbers. -/
def neg (I : Interval) : Interval :=
  ⟨I.upper.neg, I.lower.neg⟩

/-- The interval of sums. -/
def add (I J : Interval) : Interval :=
  if I.isEmpty || J.isEmpty then empty
  else ⟨I.lower.add J.lower, I.upper.add J.upper⟩

/-- The interval of differences. -/
def sub (I J : Interval) : Interval :=
  I.add J.neg

/-- The interval of absolute values. -/
def abs (I : Interval) : Interval :=
  if I.isEmpty then empty
  else match I.sign with
    | .positive => I
    | .negative => I.neg
    | .zero => ⟨.finite 0 true, I.lower.magnitude.outerUpper I.upper.magnitude⟩

/-- The interval of `n`-th powers. An odd power keeps the order of the bounds;
an even one keeps it right of `0`, reverses it left of `0`, and starts at `0` in
between. -/
def pow (I : Interval) (n : Nat) : Interval :=
  if I.isEmpty then empty
  else if n = 0 then point 1
  else if n % 2 = 1 then ⟨I.lower.pow n, I.upper.pow n⟩
  else if I.lower.isFinite && 0 ≤ I.lower.value then ⟨I.lower.pow n, I.upper.pow n⟩
  else if I.upper.isFinite && I.upper.value ≤ 0 then ⟨I.upper.pow n, I.lower.pow n⟩
  else ⟨.finite 0 true, (I.lower.pow n).outerUpper (I.upper.pow n)⟩

end Interval

/-! ## Products -/

/-- A point of the extended line at which a product of bounds lies, with whether
it is the product of two members. -/
inductive Corner where
  | negInfinity
  | point (value : Rat) (attained : Bool)
  | posInfinity
deriving DecidableEq

namespace Corner

/-- The infinite corner of a given side. -/
def infinity (positive : Bool) : Corner :=
  if positive then posInfinity else negInfinity

/-- A lower bound as a corner. -/
def ofLower : Endpoint → Corner
  | .infinite => negInfinity
  | .finite v included => point v included

/-- An upper bound as a corner. -/
def ofUpper : Endpoint → Corner
  | .infinite => posInfinity
  | .finite v included => point v included

/-- A corner as a bound. -/
def toEndpoint : Corner → Endpoint
  | point v attained => .finite v attained
  | _ => .infinite

/-- A number times an infinity: infinite with the product's sign, or `0`, which
is attained as far as the number is. -/
def scaleInfinity (v : Rat) (attained positive : Bool) : Corner :=
  if v = 0 then point 0 attained else infinity ((0 < v) == positive)

/-- The product of two corners. A product of numbers is attained if both are, or
if one is an attained `0`. -/
def mul : Corner → Corner → Corner
  | point v a, point w b =>
    point (v * w) ((a && b) || (v = 0 && a) || (w = 0 && b))
  | point v a, posInfinity => scaleInfinity v a true
  | point v a, negInfinity => scaleInfinity v a false
  | posInfinity, point v a => scaleInfinity v a true
  | negInfinity, point v a => scaleInfinity v a false
  | posInfinity, posInfinity => posInfinity
  | negInfinity, negInfinity => posInfinity
  | posInfinity, negInfinity => negInfinity
  | negInfinity, posInfinity => negInfinity

/-- The lower of two corners; a common number is attained if one attains it. -/
def min : Corner → Corner → Corner
  | negInfinity, _ => negInfinity
  | _, negInfinity => negInfinity
  | posInfinity, c => c
  | c, posInfinity => c
  | point v a, point w b =>
    match Rational.order v w with
    | .lt => point v a
    | .gt => point w b
    | .eq => point v (a || b)

/-- The upper of two corners; a common number is attained if one attains it. -/
def max : Corner → Corner → Corner
  | posInfinity, _ => posInfinity
  | _, posInfinity => posInfinity
  | negInfinity, c => c
  | c, negInfinity => c
  | point v a, point w b =>
    match Rational.order v w with
    | .gt => point v a
    | .lt => point w b
    | .eq => point v (a || b)

end Corner

/-- The interval of products, spanned by the four corners. -/
def Interval.mul (I J : Interval) : Interval :=
  if I.isEmpty || J.isEmpty then empty
  else
    let a := Corner.ofLower I.lower
    let b := Corner.ofUpper I.upper
    let c := Corner.ofLower J.lower
    let d := Corner.ofUpper J.upper
    let p := a.mul c
    let q := a.mul d
    let r := b.mul c
    let s := b.mul d
    ⟨(((p.min q).min r).min s).toEndpoint, (((p.max q).max r).max s).toEndpoint⟩

end AlgebraicReals
