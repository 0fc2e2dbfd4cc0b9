import Mathlib
import AlgebraicReals.Interval.Arithmetic

set_option autoImplicit false

/-! # Bounds as they are stored

One side of an interval is stored as a number and a kind, and an infinite side has a number,
too, which means nothing. The arithmetic of bounds works on the two fields; what it means is
the arithmetic of endpoints (`toEndpoint_add` and its like), in which an infinite side has no
number. So a number that means nothing cannot reach one that does. -/

namespace AlgebraicReals

/-- One side of an interval as it is stored. -/
structure Bound where
  value : Rat
  kind : BoundKind
deriving DecidableEq

namespace Bound

/-- The endpoint that is meant. -/
def toEndpoint (b : Bound) : Endpoint :=
  .ofKind b.kind b.value

/-- Whether a number is not cut off by the bound as a lower one. -/
def admitsAbove (b : Bound) (x : Rat) : Bool :=
  match b.kind with
  | .infinite => true
  | .excluded => b.value < x
  | .included => b.value ≤ x

/-- Whether a number is not cut off by the bound as an upper one. -/
def admitsBelow (b : Bound) (x : Rat) : Bool :=
  match b.kind with
  | .infinite => true
  | .excluded => x < b.value
  | .included => x ≤ b.value

/-- Whether the bound as an upper one leaves negative numbers only. -/
def leavesNegative (b : Bound) : Bool :=
  !b.kind.isInfinite && (b.value < 0 || (b.value = 0 && b.kind.isExcluded))

/-- Whether the bound as a lower one leaves positive numbers only. -/
def leavesPositive (b : Bound) : Bool :=
  !b.kind.isInfinite && (0 < b.value || (b.value = 0 && b.kind.isExcluded))

/-- The bound mirrored at `0`. -/
def neg (b : Bound) : Bound :=
  ⟨-b.value, b.kind⟩

/-- The sum of two bounds of the same side. -/
def add (b c : Bound) : Bound :=
  ⟨b.value + c.value, b.kind.sum c.kind⟩

/-- The absolute value of a bound. -/
def magnitude (b : Bound) : Bound :=
  ⟨Rational.magnitude b.value, b.kind⟩

/-- The power of a bound. -/
def pow (b : Bound) (n : Nat) : Bound :=
  ⟨b.value ^ n, b.kind⟩

/-- The reciprocal of a bound. -/
def reciprocal (b : Bound) : Bound :=
  if b.kind.isInfinite then ⟨0, .excluded⟩
  else if b.value = 0 then ⟨0, .infinite⟩
  else ⟨1 / b.value, b.kind⟩

/-- The lower bound of two that admits more. -/
def outerLower (b c : Bound) : Bound :=
  if b.kind.isInfinite || c.kind.isInfinite then ⟨0, .infinite⟩
  else match Rational.order b.value c.value with
    | .lt => b
    | .gt => c
    | .eq => ⟨b.value, b.kind.tie c.kind⟩

/-- The upper bound of two that admits more. -/
def outerUpper (b c : Bound) : Bound :=
  if b.kind.isInfinite || c.kind.isInfinite then ⟨0, .infinite⟩
  else match Rational.order b.value c.value with
    | .gt => b
    | .lt => c
    | .eq => ⟨b.value, b.kind.tie c.kind⟩

/-- The lower bound of two that admits less. -/
def innerLower (b c : Bound) : Bound :=
  match b.kind, c.kind with
  | .infinite, .infinite => ⟨0, .infinite⟩
  | .infinite, _ => c
  | _, .infinite => b
  | k, m =>
    match Rational.order b.value c.value with
    | .gt => b
    | .lt => c
    | .eq => ⟨b.value, k.sum m⟩

/-- The upper bound of two that admits less. -/
def innerUpper (b c : Bound) : Bound :=
  match b.kind, c.kind with
  | .infinite, .infinite => ⟨0, .infinite⟩
  | .infinite, _ => c
  | _, .infinite => b
  | k, m =>
    match Rational.order b.value c.value with
    | .lt => b
    | .gt => c
    | .eq => ⟨b.value, k.sum m⟩

/-- A lower bound as a corner. -/
def lowerCorner (b : Bound) : Corner :=
  if b.kind.isInfinite then .negInfinity else .point b.value b.kind.isIncluded

/-- An upper bound as a corner. -/
def upperCorner (b : Bound) : Corner :=
  if b.kind.isInfinite then .posInfinity else .point b.value b.kind.isIncluded

/-- A corner as a bound. -/
def ofCorner : Corner → Bound
  | .point v attained => ⟨v, if attained then .included else .excluded⟩
  | _ => ⟨0, .infinite⟩

section

variable (b c : Bound)

theorem admitsAbove_eq (x : Rat) : b.admitsAbove x = b.toEndpoint.admitsAbove x := by
  obtain ⟨v, k⟩ := b
  cases k <;> rfl

theorem admitsBelow_eq (x : Rat) : b.admitsBelow x = b.toEndpoint.admitsBelow x := by
  obtain ⟨v, k⟩ := b
  cases k <;> rfl

theorem leavesNegative_eq : b.leavesNegative = !b.toEndpoint.admitsBelow 0 := by
  obtain ⟨v, k⟩ := b
  rw [Bool.eq_iff_iff]
  cases k with
  | infinite => exact iff_of_false Bool.false_ne_true Bool.false_ne_true
  | included =>
      simp [leavesNegative, toEndpoint, Endpoint.ofKind, Endpoint.admitsBelow,
        BoundKind.isInfinite, BoundKind.isExcluded]
  | excluded =>
      simpa [leavesNegative, toEndpoint, Endpoint.ofKind, Endpoint.admitsBelow,
        BoundKind.isInfinite, BoundKind.isExcluded] using (le_iff_lt_or_eq (a := v) (b := 0)).symm

theorem leavesPositive_eq : b.leavesPositive = !b.toEndpoint.admitsAbove 0 := by
  obtain ⟨v, k⟩ := b
  rw [Bool.eq_iff_iff]
  cases k with
  | infinite => exact iff_of_false Bool.false_ne_true Bool.false_ne_true
  | included =>
      simp [leavesPositive, toEndpoint, Endpoint.ofKind, Endpoint.admitsAbove,
        BoundKind.isInfinite, BoundKind.isExcluded]
  | excluded =>
      simpa [leavesPositive, toEndpoint, Endpoint.ofKind, Endpoint.admitsAbove,
        BoundKind.isInfinite, BoundKind.isExcluded] using (le_iff_lt_or_eq' (a := v) (b := 0)).symm

/-- A test on the number of a finite bound never sees that of an infinite one. -/
theorem finite_and_eq (test : Rat → Bool) :
    (!b.kind.isInfinite && test b.value) = (b.toEndpoint.isFinite && test b.toEndpoint.value) := by
  obtain ⟨v, k⟩ := b
  cases k <;> rfl

theorem infinite_or_eq (test : Rat → Bool) :
    (b.kind.isInfinite || test b.value) = (!b.toEndpoint.isFinite || test b.toEndpoint.value) := by
  obtain ⟨v, k⟩ := b
  cases k <;> rfl

@[simp] theorem toEndpoint_neg : b.neg.toEndpoint = b.toEndpoint.neg := by
  obtain ⟨v, k⟩ := b
  cases k <;> rfl

@[simp] theorem toEndpoint_add : (b.add c).toEndpoint = b.toEndpoint.add c.toEndpoint := by
  obtain ⟨v, k⟩ := b
  obtain ⟨w, m⟩ := c
  cases k <;> cases m <;> rfl

@[simp] theorem toEndpoint_magnitude : b.magnitude.toEndpoint = b.toEndpoint.magnitude := by
  obtain ⟨v, k⟩ := b
  cases k <;> rfl

@[simp] theorem toEndpoint_pow (n : Nat) : (b.pow n).toEndpoint = b.toEndpoint.pow n := by
  obtain ⟨v, k⟩ := b
  cases k <;> rfl

@[simp] theorem toEndpoint_reciprocal : b.reciprocal.toEndpoint = b.toEndpoint.reciprocal := by
  obtain ⟨v, k⟩ := b
  by_cases hv : v = 0
  all_goals cases k
  all_goals simp [reciprocal, Endpoint.reciprocal, toEndpoint, Endpoint.ofKind,
    BoundKind.isInfinite, hv]

theorem toEndpoint_outerLower :
    (b.outerLower c).toEndpoint = b.toEndpoint.outerLower c.toEndpoint := by
  obtain ⟨v, k⟩ := b
  obtain ⟨w, m⟩ := c
  cases h : Rational.order v w <;> cases k <;> cases m <;>
    simp [outerLower, Endpoint.outerLower, toEndpoint, Endpoint.ofKind, BoundKind.isInfinite, h,
      BoundKind.tie]

theorem toEndpoint_outerUpper :
    (b.outerUpper c).toEndpoint = b.toEndpoint.outerUpper c.toEndpoint := by
  obtain ⟨v, k⟩ := b
  obtain ⟨w, m⟩ := c
  cases h : Rational.order v w <;> cases k <;> cases m <;>
    simp [outerUpper, Endpoint.outerUpper, toEndpoint, Endpoint.ofKind, BoundKind.isInfinite, h,
      BoundKind.tie]

theorem toEndpoint_innerLower :
    (b.innerLower c).toEndpoint = b.toEndpoint.innerLower c.toEndpoint := by
  obtain ⟨v, k⟩ := b
  obtain ⟨w, m⟩ := c
  cases h : Rational.order v w <;> cases k <;> cases m <;>
    simp [innerLower, Endpoint.innerLower, toEndpoint, Endpoint.ofKind, h, BoundKind.sum]

theorem toEndpoint_innerUpper :
    (b.innerUpper c).toEndpoint = b.toEndpoint.innerUpper c.toEndpoint := by
  obtain ⟨v, k⟩ := b
  obtain ⟨w, m⟩ := c
  cases h : Rational.order v w <;> cases k <;> cases m <;>
    simp [innerUpper, Endpoint.innerUpper, toEndpoint, Endpoint.ofKind, h, BoundKind.sum]

theorem lowerCorner_eq : b.lowerCorner = .ofLower b.toEndpoint := by
  obtain ⟨v, k⟩ := b
  cases k <;> rfl

theorem upperCorner_eq : b.upperCorner = .ofUpper b.toEndpoint := by
  obtain ⟨v, k⟩ := b
  cases k <;> rfl

theorem toEndpoint_ofCorner (c : Corner) : (ofCorner c).toEndpoint = c.toEndpoint := by
  rcases c with _ | ⟨v, _ | _⟩ | _ <;> rfl

end

end Bound

end AlgebraicReals
