set_option autoImplicit false

/-! # Signs

A sign is what a query about a number most often answers: negative, zero or
positive. Signs multiply like the numbers they describe, and they are ordered
the same way. -/

namespace AlgebraicReals

/-- The sign of a number. -/
inductive Sign where
  | negative
  | zero
  | positive
deriving DecidableEq

namespace Sign

/-- The sign of a rational number. -/
def ofRat (x : Rat) : Sign :=
  if x < 0 then negative else if x = 0 then zero else positive

/-- The sign of the opposite number. -/
def neg : Sign → Sign
  | negative => positive
  | zero => zero
  | positive => negative

instance : Neg Sign := ⟨neg⟩

/-- The sign of a product. -/
def mul : Sign → Sign → Sign
  | zero, _ => zero
  | _, zero => zero
  | negative, negative => positive
  | positive, positive => positive
  | _, _ => negative

instance : Mul Sign := ⟨mul⟩

/-- The unit with this sign: `-1`, `0` or `1`. -/
def toInt : Sign → Int
  | negative => -1
  | zero => 0
  | positive => 1

/-- Whether the sign is zero. -/
def isZero : Sign → Bool
  | zero => true
  | _ => false

/-- How a number of this sign compares with `0`. -/
def toOrdering : Sign → Ordering
  | negative => .lt
  | zero => .eq
  | positive => .gt

/-- The sign of a number that compares with `0` in the given way. -/
def ofOrdering : Ordering → Sign
  | .lt => negative
  | .eq => zero
  | .gt => positive

/-- Signs are ordered as `negative`, `zero`, `positive`. -/
def order (a b : Sign) : Ordering :=
  compareOfLessAndEq a.toInt b.toInt

/-- The one-character text of a sign. -/
def render : Sign → String
  | negative => "-"
  | zero => "0"
  | positive => "+"

@[simp] theorem ofOrdering_toOrdering (s : Sign) : ofOrdering s.toOrdering = s := by
  cases s <;> rfl

@[simp] theorem toOrdering_ofOrdering (o : Ordering) : (ofOrdering o).toOrdering = o := by
  cases o <;> rfl

@[simp] theorem neg_neg (s : Sign) : - -s = s := by
  cases s <;> rfl

theorem toInt_mul (s t : Sign) : (s * t).toInt = s.toInt * t.toInt := by
  cases s <;> cases t <;> rfl

@[simp] theorem isZero_iff (s : Sign) : s.isZero = true ↔ s = zero := by
  cases s <;> simp [isZero]

end Sign

end AlgebraicReals
