import AlgebraicReals.Interval.Basic
import AlgebraicReals.Poly.Division

set_option autoImplicit false

/-! # Sturm chains and root counting

The Sturm chain of a polynomial starts with its square-free part and the
derivative of that, and goes on with negated remainders. The signs along the
chain change less and less often from left to right, by one at each real root,
so the roots in an interval can be counted from the signs at its two ends.

A chain remembers the polynomial it was made from, and its type says that it is
*the* chain of that polynomial: chains can be shared and stored without anything
to prove about where they came from (`SturmChain.eq_ofPoly`). -/

namespace AlgebraicReals

/-- The polynomials of a Sturm chain after `p`, the next one being `q`. -/
def negatedRemainders (p q : Poly) : List Poly :=
  if q.isZero then [] else q :: negatedRemainders q (-(p % q))
termination_by q.coeffs.length
decreasing_by
  exact Nat.lt_of_le_of_lt (Poly.length_coeffs_neg_le _)
    (Poly.length_coeffs_mod_lt p q (by simp_all))

/-- The Sturm chain of a polynomial. -/
structure SturmChain where
  /-- The polynomial whose roots the chain counts. -/
  source : Poly
  /-- The square-free polynomial with the same roots, first of the chain. -/
  head : Poly
  /-- The rest of the chain. -/
  tail : List Poly
  /-- The chain starts with the square-free part of its source. -/
  head_eq : head = source.squareFreePart
  /-- The chain goes on with negated remainders. -/
  tail_eq : tail = negatedRemainders head head.derivative

/-- How often neighbours differ in a list of signs. -/
def signChanges : List Sign → Nat
  | s :: t :: rest => (if s = t then 0 else 1) + signChanges (t :: rest)
  | _ => 0

/-- How often a list of signs changes, zeros left out. -/
def variations (signs : List Sign) : Nat :=
  signChanges (signs.filter (· ≠ .zero))

namespace SturmChain

/-- The Sturm chain of a given polynomial. -/
def ofPoly (p : Poly) : SturmChain :=
  let head := p.squareFreePart
  ⟨p, head, negatedRemainders head head.derivative, rfl, rfl⟩

/-- A polynomial has only one Sturm chain. -/
theorem eq_ofPoly (c : SturmChain) : c = ofPoly c.source := by
  cases c with
  | mk source head tail head_eq tail_eq =>
    subst head_eq tail_eq
    rfl

@[simp] theorem source_ofPoly (p : Poly) : (ofPoly p).source = p := rfl

/-- All polynomials of the chain. -/
def members (c : SturmChain) : List Poly :=
  c.head :: c.tail

/-- The number of sign changes of the chain at a rational number. -/
def variationsAt (c : SturmChain) (x : Rat) : Nat :=
  variations (c.members.map (·.signAt x))

/-- The number of sign changes of the chain far to the left. -/
def variationsAtNegInfinity (c : SturmChain) : Nat :=
  variations (c.members.map (·.signAtNegInfinity))

/-- The number of sign changes of the chain far to the right. -/
def variationsAtPosInfinity (c : SturmChain) : Nat :=
  variations (c.members.map (·.signAtPosInfinity))

/-- The number of sign changes at the start of an interval. -/
def variationsAtLower (c : SturmChain) : Endpoint → Nat
  | .infinite => c.variationsAtNegInfinity
  | .finite v _ => c.variationsAt v

/-- The number of sign changes at the end of an interval. -/
def variationsAtUpper (c : SturmChain) : Endpoint → Nat
  | .infinite => c.variationsAtPosInfinity
  | .finite v _ => c.variationsAt v

/-- Whether a rational number is a root. -/
def isRoot (c : SturmChain) (x : Rat) : Bool :=
  c.head.eval x = 0

/-- The number of distinct roots in an interval. The drop in sign changes counts
the roots of a half-open interval that includes its upper end; a root on an
included lower end is added and one on an excluded upper end taken off. -/
def countRoots (c : SturmChain) (I : Interval) : Nat :=
  if I.isEmpty || c.head.isConstant then 0
  else match I.point? with
    | some x => if c.isRoot x then 1 else 0
    | none =>
      let halfOpen := c.variationsAtLower I.lower - c.variationsAtUpper I.upper
      let withLower :=
        if I.lower.kind.isIncluded && c.isRoot I.lower.value then halfOpen + 1 else halfOpen
      if I.upper.kind.isExcluded && c.isRoot I.upper.value then withLower - 1 else withLower

/-- Whether an interval holds exactly one root. -/
def isolates (c : SturmChain) (I : Interval) : Bool :=
  c.countRoots I = 1

end SturmChain

/-- Whether two polynomials, not both zero, have a common root in an
interval. -/
def Poly.haveCommonRoot (p q : Poly) (I : Interval) : Bool :=
  !I.isEmpty && 0 < (SturmChain.ofPoly (p.gcd q)).countRoots I

end AlgebraicReals
