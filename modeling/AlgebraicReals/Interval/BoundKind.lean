set_option autoImplicit false

/-! # Kinds of bounds

A bound of an interval belongs to it (`included`), does not (`excluded`), or is
missing on that side (`infinite`). Two rules combine kinds: a sum of two bounds
is attained only if both are, and a bound reached from two sides is attained if
one of them attains it. -/

namespace AlgebraicReals

/-- How an interval ends on one side. -/
inductive BoundKind where
  | included
  | excluded
  | infinite
deriving DecidableEq

namespace BoundKind

/-- The kind of a sum of two bounds: infinite if one is, and attained only if
both are. -/
def sum : BoundKind → BoundKind → BoundKind
  | infinite, _ => infinite
  | _, infinite => infinite
  | included, included => included
  | _, _ => excluded

/-- The kind of a finite bound that two bounds share: attained if one of them
attains it. -/
def tie : BoundKind → BoundKind → BoundKind
  | included, _ => included
  | _, included => included
  | _, _ => excluded

/-- Whether the bound is missing. -/
def isInfinite : BoundKind → Bool
  | infinite => true
  | _ => false

/-- Whether the bound is a number outside the interval. -/
def isExcluded : BoundKind → Bool
  | excluded => true
  | _ => false

/-- Whether the bound is a number of the interval. -/
def isIncluded : BoundKind → Bool
  | included => true
  | _ => false

theorem sum_comm (a b : BoundKind) : a.sum b = b.sum a := by
  cases a <;> cases b <;> rfl

theorem tie_comm (a b : BoundKind) : a.tie b = b.tie a := by
  cases a <;> cases b <;> rfl

end BoundKind

end AlgebraicReals
