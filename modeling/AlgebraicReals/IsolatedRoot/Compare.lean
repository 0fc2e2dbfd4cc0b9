import AlgebraicReals.IsolatedRoot.Query

set_option autoImplicit false

/-! # Comparing two roots

Two roots are equal exactly if both polynomials have a common root where the two
intervals overlap; this is looked at once, before any bisection. Roots that
differ are told apart by bisecting both in turn until the intervals separate. As
soon as one of them is known exactly, only the other one is bisected. -/

namespace AlgebraicReals

/-- Two roots under comparison. -/
structure Contest where
  /-- The root that is compared. -/
  left : IsolatedRoot
  /-- The root that it is compared with. -/
  right : IsolatedRoot
  /-- Which root is bisected next, if neither is known exactly. -/
  leftNext : Bool

namespace Contest

/-- The order of the two roots, if the present intervals tell. -/
def decide? (s : Contest) : Option (Ordering × Contest) :=
  match s.left.location, s.right.location with
  | _, .exact v =>
    (s.left.compareValue? v).map fun (o, r) => (o, ⟨r, s.right, s.leftNext⟩)
  | .exact v, .between _ _ =>
    (s.right.compareValue? v).map fun (o, r) => (o.swap, ⟨s.left, r, s.leftNext⟩)
  | .between l u, .between l' u' =>
    if (Interval.between l u).disjoint (.between l' u') then some (Rational.order l l', s)
    else none

/-- Bisects the root whose turn it is, or the only one not known exactly. -/
def step (s : Contest) : Contest :=
  let refineLeft := !s.left.isExact && (s.right.isExact || s.leftNext)
  if refineLeft then ⟨s.left.refine, s.right, !s.leftNext⟩
  else ⟨s.left, s.right.refine, !s.leftNext⟩

end Contest

namespace IsolatedRoot

/-- Whether two roots, neither of them known exactly, are the same number. -/
def sharesRoot (a b : IsolatedRoot) : Bool :=
  !a.isExact && !b.isExact && a.poly.haveCommonRoot b.poly (a.interval.inter b.interval)

/-- How two roots compare. The cap is on the bisections of both together. -/
def compare (a b : IsolatedRoot) (cap : Nat) : Outcome (IsolatedRoot × IsolatedRoot) Ordering :=
  if a.sharesRoot b then .now .eq (a, b)
  else
    (search Contest.decide? Contest.step cap ⟨a, b, true⟩).mapState fun s => (s.left, s.right)

end IsolatedRoot

end AlgebraicReals
