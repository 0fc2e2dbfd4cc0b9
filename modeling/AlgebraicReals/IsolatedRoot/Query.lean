import AlgebraicReals.Horner.Evaluator
import AlgebraicReals.IsolatedRoot.Basic
import AlgebraicReals.Limits
import AlgebraicReals.Search

set_option autoImplicit false

/-! # Queries about one root

Each query is a test on the present interval, tried again after every bisection.
A test that a rational number stands in the way of, because it might be the root
itself, looks at this number first: no interval around it could decide. -/

namespace AlgebraicReals

/-- How a refinement ended. -/
inductive Refinement where
  /-- The interval is as wanted. -/
  | resolved
  /-- The value was found. -/
  | collapsed
deriving DecidableEq

namespace IsolatedRoot

/-! ## Refinement -/

/-- Whether the value is known or the interval is as wanted. -/
def refined? (stop : Interval → Bool) (r : IsolatedRoot) : Option (Refinement × IsolatedRoot) :=
  if r.isExact then some (.collapsed, r)
  else if stop r.interval then some (.resolved, r)
  else none

/-- Bisects until the value is known or the interval is as wanted. -/
def refineUntil (stop : Interval → Bool) (cap : Nat) (r : IsolatedRoot) :
    Outcome IsolatedRoot Refinement :=
  search (refined? stop) refine cap r

/-- Whether an interval is narrower than the given width. -/
def narrowerThan (w : Rat) (I : Interval) : Bool :=
  match I.width? with
  | some v => v < w
  | none => false

/-- Bisects until the interval is narrow enough for the precision asked for. -/
def refineToPrecision (limits : Limits) (r : IsolatedRoot) : Outcome IsolatedRoot Refinement :=
  r.refineUntil (narrowerThan limits.targetWidth) limits.maxRefinements

/-! ## The sign of a polynomial -/

/-- The sign of `q` at the root, read off its value or off a range of values
without `0`. -/
def signOf? (ev : Evaluator) (q : Poly) (r : IsolatedRoot) : Option (Sign × IsolatedRoot) :=
  match r.location with
  | .exact v => some (Sign.ofRat (ev.valueAt q v), r)
  | .between l u =>
    let s := (ev.enclose q (.between l u)).sign
    if s = .zero then none else some (s, r)

/-- The sign of `q` at the root. If `q` vanishes there, a common root of both
polynomials tells; otherwise ranges of `q` over smaller and smaller intervals
leave `0` behind. One range is computed for each interval that does not hold the
exact value. -/
def signOf (ev : Evaluator) (q : Poly) (cap : Nat) (r : IsolatedRoot) :
    Outcome IsolatedRoot Sign :=
  match r.location with
  | .exact v => .now (Sign.ofRat (ev.valueAt q v)) r
  | .between l u =>
    if q.isConstant then .now (Sign.ofRat q.constantTerm) r
    else if r.poly.haveCommonRoot q (.between l u) then .now .zero r
    else
      let o := search (signOf? ev q) refine cap r
      ⟨o.answer, o.state, o.steps, if o.state.isExact then o.steps else o.steps + 1⟩

/-! ## A point to branch on -/

/-- The root itself, or a midpoint that is not an integer. -/
def branchingPoint? (r : IsolatedRoot) : Option (Rat × IsolatedRoot) :=
  match r.location with
  | .exact v => some (v, r)
  | .between l u =>
    let m := Rational.midpoint l u
    if r.chain.isRoot m then some (m, r.collapse m)
    else if Rational.isIntegral m then none
    else some (m, r)

/-- A number to split the line at: the root itself, or a number near it that is
not an integer. -/
def branchingPoint (cap : Nat) (r : IsolatedRoot) : Outcome IsolatedRoot Rat :=
  search branchingPoint? refine cap r

/-! ## Membership -/

/-- Whether the root lies in an interval, if the present interval tells. -/
def containedIn? (query : Interval) (r : IsolatedRoot) : Option (Bool × IsolatedRoot) :=
  match r.location with
  | .exact v => some (query.contains v, r)
  | .between l u =>
    if query.isEmpty then some (false, r)
    else
      let I := Interval.between l u
      match query.bounds.find? (fun e => I.contains e && r.chain.isRoot e) with
      | some e => some (query.contains e, r.collapse e)
      | none =>
        if query.includes I then some (true, r)
        else if I.disjoint query then some (false, r)
        else none

/-- Whether the root lies in an interval. -/
def containedIn (query : Interval) (cap : Nat) (r : IsolatedRoot) : Outcome IsolatedRoot Bool :=
  search (containedIn? query) refine cap r

/-! ## Order -/

/-- How the root compares with a rational number, if the present interval
tells. -/
def compareValue? (v : Rat) (r : IsolatedRoot) : Option (Ordering × IsolatedRoot) :=
  match r.location with
  | .exact x => some (Rational.order x v, r)
  | .between l u =>
    if (Interval.between l u).contains v then
      if r.chain.isRoot v then some (.eq, r.collapse v) else none
    else some (if v ≤ l then .gt else .lt, r)

/-- How the root compares with a rational number. -/
def compareValue (v : Rat) (cap : Nat) (r : IsolatedRoot) : Outcome IsolatedRoot Ordering :=
  search (compareValue? v) refine cap r

end IsolatedRoot

end AlgebraicReals
