import AlgebraicReals.Interval.Basic

set_option autoImplicit false

/-! # Intersection and hull

The largest interval inside two intervals and the smallest one around them. An
empty intersection is always answered as `(0, 0)`; the hull with an empty
interval is the other interval, as it stands. -/

namespace AlgebraicReals.Interval

/-- The interval of common members. -/
def inter (I J : Interval) : Interval :=
  let K : Interval := ⟨I.lower.innerLower J.lower, I.upper.innerUpper J.upper⟩
  if I.isEmpty || J.isEmpty || K.isEmpty then empty else K

/-- The smallest interval around both. -/
def hull (I J : Interval) : Interval :=
  if I.isEmpty then J
  else if J.isEmpty then I
  else ⟨I.lower.outerLower J.lower, I.upper.outerUpper J.upper⟩

/-- Whether two intervals have no member in common. -/
def disjoint (I J : Interval) : Bool :=
  (I.inter J).isEmpty

end AlgebraicReals.Interval
