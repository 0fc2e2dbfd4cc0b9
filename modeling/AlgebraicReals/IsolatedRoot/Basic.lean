import AlgebraicReals.Error
import AlgebraicReals.Interval.Lattice
import AlgebraicReals.Interval.Printer
import AlgebraicReals.Poly.CauchyBound
import AlgebraicReals.Poly.Printer
import AlgebraicReals.SturmChain

set_option autoImplicit false

/-! # Isolated roots

A real algebraic number is given as *the* root of a polynomial in an interval
that holds exactly one. When it is made, the interval is brought into a normal
form: it is open and bounded and does not contain `0`, or the root turns out to
be a rational number and is kept as such. From then on the interval only
shrinks, by bisection, or collapses to the exact value when that is met. -/

namespace AlgebraicReals

/-- Where a root is known to lie. -/
inductive Location where
  /-- The root is this rational number. -/
  | exact (value : Rat)
  /-- The root lies strictly between two rational numbers. -/
  | between (lower upper : Rat)
deriving DecidableEq

namespace Location

/-- The location as an interval. -/
def interval : Location → Interval
  | exact v => .point v
  | between l u => .between l u

/-- The root, if it is known exactly. -/
def value? : Location → Option Rat
  | exact v => some v
  | between _ _ => none

/-- Whether the root is known exactly. -/
def isExact : Location → Bool
  | exact _ => true
  | between _ _ => false

end Location

/-- A root of a polynomial, told apart from its other roots. -/
structure IsolatedRoot where
  /-- The Sturm chain of the polynomial. -/
  chain : SturmChain
  /-- Where the root lies. -/
  location : Location
  /-- A mark for the caller: the number stands for a root of a polynomial. -/
  isRoot : Bool
  /-- The number of bisections so far. -/
  refinements : Nat

/-! ## Cutting intervals

A root strictly between two numbers is looked for at a third one between them,
and then to the left and to the right of that. -/

/-- Where the only root between `l` and `u` lies in respect to `m`. -/
def SturmChain.cut (c : SturmChain) (l m u : Rat) : Location :=
  if c.isRoot m then .exact m
  else if c.isolates (.between l m) then .between l m
  else .between m u

/-- The normal form of an interval that holds exactly one root. -/
def SturmChain.locate (c : SturmChain) (I : Interval) : Location :=
  match I.point? with
  | some x => .exact x
  | none =>
    if c.head.degree = 1 then .exact (-c.head.constantTerm)
    else if I.lower.kind.isIncluded && c.isRoot I.lower.value then .exact I.lower.value
    else if I.upper.kind.isIncluded && c.isRoot I.upper.value then .exact I.upper.value
    else
      let l := I.lower.value?.getD (-c.source.cauchyBound)
      let u := I.upper.value?.getD c.source.cauchyBound
      if (Interval.between l u).contains 0 then c.cut l 0 u else .between l u

namespace IsolatedRoot

/-! ## Making roots -/

/-- The root in an interval, given the polynomial's Sturm chain. -/
def ofChain (c : SturmChain) (I : Interval) (isRoot : Bool) :
    Except AlgebraicError IsolatedRoot :=
  if c.source.isZero then .error .zeroPolynomial
  else
    let roots := c.countRoots I
    if roots = 1 then .ok ⟨c, c.locate I, isRoot, 0⟩ else .error (.nonIsolating roots)

/-- The root of a polynomial in an interval. -/
def ofPoly (p : Poly) (I : Interval) (isRoot : Bool) : Except AlgebraicError IsolatedRoot :=
  ofChain (.ofPoly p) I isRoot

/-- The root of the same polynomial in another interval. -/
def sibling (r : IsolatedRoot) (I : Interval) (isRoot : Bool) :
    Except AlgebraicError IsolatedRoot :=
  ofChain r.chain I isRoot

/-! ## What is known about a root -/

/-- The polynomial. -/
def poly (r : IsolatedRoot) : Poly :=
  r.chain.source

/-- The present interval around the root. -/
def interval (r : IsolatedRoot) : Interval :=
  r.location.interval

/-- The root, if it is known exactly. -/
def value? (r : IsolatedRoot) : Option Rat :=
  r.location.value?

/-- Whether the root is known exactly. -/
def isExact (r : IsolatedRoot) : Bool :=
  r.location.isExact

/-- Whether the root is `0`; a root at `0` is always known exactly. -/
def isZero (r : IsolatedRoot) : Bool :=
  match r.location with
  | .exact v => v = 0
  | .between _ _ => false

/-- The sign of the root. -/
def sign (r : IsolatedRoot) : Sign :=
  match r.location with
  | .exact v => Sign.ofRat v
  | .between l u => (Interval.between l u).sign

/-- A rational number near the root. -/
def approximation (r : IsolatedRoot) : Rat :=
  match r.location with
  | .exact v => v
  | .between l u => Rational.midpoint l u

/-- The text of a root: its value, or the polynomial and the interval. -/
def render (r : IsolatedRoot) : String :=
  match r.location with
  | .exact v => Rational.render v
  | .between l u => "(" ++ r.poly.render ++ ", " ++ (Interval.between l u).render ++ ")"

/-! ## Changes -/

/-- The same root with another mark. -/
def setIsRoot (r : IsolatedRoot) (isRoot : Bool) : IsolatedRoot :=
  ⟨r.chain, r.location, isRoot, r.refinements⟩

/-- The root with its value found. -/
def collapse (r : IsolatedRoot) (v : Rat) : IsolatedRoot :=
  ⟨r.chain, .exact v, r.isRoot, r.refinements⟩

/-- Bisects the interval once, unless the value is known. -/
def refine (r : IsolatedRoot) : IsolatedRoot :=
  match r.location with
  | .exact _ => r
  | .between l u =>
    ⟨r.chain, r.chain.cut l (Rational.midpoint l u) u, r.isRoot, r.refinements + 1⟩

end IsolatedRoot

end AlgebraicReals
