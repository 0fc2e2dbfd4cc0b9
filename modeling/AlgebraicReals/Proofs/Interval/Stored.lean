import Mathlib
import AlgebraicReals.Interval.Division
import AlgebraicReals.Proofs.Interval.Bound
import AlgebraicReals.Proofs.Interval.Membership

set_option autoImplicit false

/-! # Intervals as they are stored

An interval is stored in four fields, a number and a kind for each side. The number of an
infinite side is to be `0`: `Stored.fromParts`, through which the operations build their
answers, drops whatever number they computed for such a side. But some answers are operands
as they stand, so that the rule is one about sequences of operations.

Two things are shown of each operation on stored intervals. Seen as an interval, its answer
is that of the operation on intervals (`toInterval_add` and its like), whatever the infinite
sides of the operands hold. And if these hold `0`, those of the answer do (`Tidy`). -/

namespace AlgebraicReals

/-- An interval as it is stored. -/
structure Stored where
  left : Rat
  leftKind : BoundKind
  right : Rat
  rightKind : BoundKind
deriving DecidableEq

namespace Stored

/-- The lower side. -/
def lower (S : Stored) : Bound :=
  ⟨S.left, S.leftKind⟩

/-- The upper side. -/
def upper (S : Stored) : Bound :=
  ⟨S.right, S.rightKind⟩

/-- The interval that is meant. -/
def toInterval (S : Stored) : Interval :=
  ⟨S.lower.toEndpoint, S.upper.toEndpoint⟩

/-- Infinite sides hold the number `0`. -/
structure Tidy (S : Stored) : Prop where
  left : S.leftKind = .infinite → S.left = 0
  right : S.rightKind = .infinite → S.right = 0

/-! ### Building -/

/-- The four fields without a check of the order; an infinite side holds `0`. -/
def fromParts (left : Rat) (leftKind : BoundKind) (right : Rat) (rightKind : BoundKind) :
    Stored :=
  ⟨if leftKind.isInfinite then 0 else left, leftKind,
    if rightKind.isInfinite then 0 else right, rightKind⟩

/-- The interval with two given sides. -/
def ofBounds (b c : Bound) : Stored :=
  fromParts b.value b.kind c.value c.kind

/-- The four fields, refused if they are two numbers that cross. -/
def new (left : Rat) (leftKind : BoundKind) (right : Rat) (rightKind : BoundKind) :
    Except IntervalError Stored :=
  if !leftKind.isInfinite && !rightKind.isInfinite && right < left then
    .error (.crossedBounds left right)
  else .ok (fromParts left leftKind right rightKind)

def point (x : Rat) : Stored :=
  fromParts x .included x .included

def empty : Stored :=
  fromParts 0 .excluded 0 .excluded

def line : Stored :=
  fromParts 0 .infinite 0 .infinite

theorem tidy_fromParts (l : Rat) (k : BoundKind) (r : Rat) (m : BoundKind) :
    (fromParts l k r m).Tidy := by
  constructor
  · rintro rfl
    rfl
  · rintro rfl
    rfl

theorem tidy_ofBounds (b c : Bound) : (ofBounds b c).Tidy :=
  tidy_fromParts _ _ _ _

theorem Tidy.fromParts_eq {S : Stored} (h : S.Tidy) :
    fromParts S.left S.leftKind S.right S.rightKind = S := by
  obtain ⟨l, k, r, m⟩ := S
  have hleft : (if k.isInfinite then 0 else l) = l := by
    cases k with
    | infinite => exact (h.left rfl).symm
    | included => rfl
    | excluded => rfl
  have hright : (if m.isInfinite then 0 else r) = r := by
    cases m with
    | infinite => exact (h.right rfl).symm
    | included => rfl
    | excluded => rfl
  rw [fromParts, hleft, hright]

theorem toInterval_ofBounds (b c : Bound) :
    (ofBounds b c).toInterval = ⟨b.toEndpoint, c.toEndpoint⟩ := by
  obtain ⟨l, k⟩ := b
  obtain ⟨r, m⟩ := c
  cases k <;> cases m <;> rfl

/-- What the constructor accepts is what it accepts of intervals. -/
theorem map_toInterval_new (l : Rat) (k : BoundKind) (r : Rat) (m : BoundKind) :
    (new l k r m).map toInterval = Interval.ofEndpoints (.ofKind k l) (.ofKind m r) := by
  by_cases h : r < l
  all_goals cases k <;> cases m
  all_goals simp [new, Interval.ofEndpoints, Endpoint.ofKind, BoundKind.isInfinite, h]
  all_goals rfl

theorem tidy_of_new {l r : Rat} {k m : BoundKind} {S : Stored} (h : new l k r m = .ok S) :
    S.Tidy := by
  unfold new at h
  split at h
  · cases h
  · cases h
    exact tidy_fromParts _ _ _ _

/-! ### Reading

What an interval is like, read off the four fields. -/

def isEmpty (S : Stored) : Bool :=
  !(S.leftKind.isInfinite || S.rightKind.isInfinite || S.left < S.right
    || (S.left = S.right && !S.leftKind.isExcluded && !S.rightKind.isExcluded))

def contains (S : Stored) (x : Rat) : Bool :=
  !S.isEmpty && S.lower.admitsAbove x && S.upper.admitsBelow x

def sign (S : Stored) : Sign :=
  if S.isEmpty then .zero
  else if S.upper.leavesNegative then .negative
  else if S.lower.leavesPositive then .positive
  else .zero

def midpoint (S : Stored) : Rat :=
  match S.leftKind.isInfinite, S.rightKind.isInfinite with
  | false, false => Rational.midpoint S.left S.right
  | true, true => 0
  | true, false => S.right - 1
  | false, true => S.left + 1

def hasNegative (S : Stored) : Bool :=
  S.leftKind.isInfinite || S.left < 0

def hasPositive (S : Stored) : Bool :=
  S.rightKind.isInfinite || 0 < S.right

def isNonnegative (S : Stored) : Bool :=
  !S.leftKind.isInfinite && 0 ≤ S.left

def isNonpositive (S : Stored) : Bool :=
  !S.rightKind.isInfinite && S.right ≤ 0

section

variable (S : Stored)

theorem isEmpty_eq : S.isEmpty = S.toInterval.isEmpty := by
  obtain ⟨l, k, r, m⟩ := S
  cases k <;> cases m <;>
    simp [isEmpty, Interval.isEmpty, toInterval, lower, upper, Bound.toEndpoint, Endpoint.ofKind,
      BoundKind.isInfinite, BoundKind.isExcluded]

theorem contains_eq (x : Rat) : S.contains x = S.toInterval.contains x := by
  unfold contains Interval.contains
  rw [isEmpty_eq, Bound.admitsAbove_eq, Bound.admitsBelow_eq, Bool.and_assoc]
  cases hempty : S.toInterval.isEmpty with
  | false => rfl
  | true =>
      -- an empty interval has no members, so that the test before changes nothing
      refine (Bool.eq_false_iff.mpr fun hx => ?_).symm
      have hmem := (Interval.contains_iff S.toInterval x).mp hx
      rw [(Interval.isEmpty_iff _).mp hempty] at hmem
      exact hmem

theorem sign_eq : S.sign = S.toInterval.sign := by
  unfold sign Interval.sign
  rw [isEmpty_eq, Bound.leavesNegative_eq, Bound.leavesPositive_eq]
  rfl

theorem midpoint_eq : S.midpoint = S.toInterval.midpoint := by
  obtain ⟨l, k, r, m⟩ := S
  cases k <;> cases m <;> rfl

theorem hasNegative_eq : S.hasNegative = S.toInterval.hasNegative :=
  S.lower.infinite_or_eq (fun v => v < 0)

theorem hasPositive_eq : S.hasPositive = S.toInterval.hasPositive :=
  S.upper.infinite_or_eq (fun v => 0 < v)

theorem isNonnegative_eq :
    S.isNonnegative = (S.toInterval.lower.isFinite && 0 ≤ S.toInterval.lower.value) :=
  S.lower.finite_and_eq (fun v => 0 ≤ v)

theorem isNonpositive_eq :
    S.isNonpositive = (S.toInterval.upper.isFinite && S.toInterval.upper.value ≤ 0) :=
  S.upper.finite_and_eq (fun v => v ≤ 0)

end

/-! ### Operations

Each of them computes with the numbers and kinds as they are stored, of infinite sides as
well, and leaves it to `ofBounds` to drop what does not count. An interval right of `0` and
a hull with an empty interval are answered with an operand as it stands. -/

def neg (S : Stored) : Stored :=
  ofBounds S.upper.neg S.lower.neg

def add (S T : Stored) : Stored :=
  if S.isEmpty || T.isEmpty then empty
  else ofBounds (S.lower.add T.lower) (S.upper.add T.upper)

def sub (S T : Stored) : Stored :=
  S.add T.neg

def abs (S : Stored) : Stored :=
  if S.isEmpty then empty
  else match S.sign with
    | .positive => S
    | .negative => S.neg
    | .zero => ofBounds ⟨0, .included⟩ (S.lower.magnitude.outerUpper S.upper.magnitude)

def pow (S : Stored) (n : Nat) : Stored :=
  if S.isEmpty then empty
  else if n = 0 then point 1
  else if n % 2 = 1 then ofBounds (S.lower.pow n) (S.upper.pow n)
  else if S.isNonnegative then ofBounds (S.lower.pow n) (S.upper.pow n)
  else if S.isNonpositive then ofBounds (S.upper.pow n) (S.lower.pow n)
  else ofBounds ⟨0, .included⟩ ((S.lower.pow n).outerUpper (S.upper.pow n))

def mul (S T : Stored) : Stored :=
  if S.isEmpty || T.isEmpty then empty
  else
    let p := S.lower.lowerCorner.mul T.lower.lowerCorner
    let q := S.lower.lowerCorner.mul T.upper.upperCorner
    let r := S.upper.upperCorner.mul T.lower.lowerCorner
    let s := S.upper.upperCorner.mul T.upper.upperCorner
    ofBounds (.ofCorner (((p.min q).min r).min s)) (.ofCorner (((p.max q).max r).max s))

def inter (S T : Stored) : Stored :=
  if S.isEmpty || T.isEmpty then empty
  else
    let b := S.lower.innerLower T.lower
    let c := S.upper.innerUpper T.upper
    if !b.kind.isInfinite && !c.kind.isInfinite && c.value < b.value then empty
    else if (ofBounds b c).isEmpty then empty
    else ofBounds b c

def hull (S T : Stored) : Stored :=
  if S.isEmpty then T
  else if T.isEmpty then S
  else ofBounds (S.lower.outerLower T.lower) (S.upper.outerUpper T.upper)

def reciprocal (S : Stored) : Stored :=
  if S.isEmpty then empty else ofBounds S.upper.reciprocal S.lower.reciprocal

def div (S T : Stored) : Except IntervalError Stored :=
  if T.contains 0 then .error .divisorContainsZero else .ok (S.mul T.reciprocal)

/-- The parts into which the answer of a division falls. -/
inductive Parts where
  | one (part : Stored)
  | two (first second : Stored)

/-- Both parts, the second one empty if there is only one. -/
def Parts.toPair : Parts → Stored × Stored
  | one part => (part, empty)
  | two first second => (first, second)

/-- The parts that are meant. -/
def Parts.toParts : Parts → AlgebraicReals.Parts
  | one part => .one part.toInterval
  | two first second => .two first.toInterval second.toInterval

def inverse (S : Stored) : Parts :=
  if S.isEmpty then .one empty
  else if !S.contains 0 then .one S.reciprocal
  else
    let below := ofBounds ⟨0, .infinite⟩ S.lower.reciprocal
    let above := ofBounds S.upper.reciprocal ⟨0, .infinite⟩
    match S.hasNegative, S.hasPositive with
    | true, true => .two below above
    | true, false => .one below
    | false, true => .one above
    | false, false => .one empty

def divParts (S T : Stored) : Parts :=
  match T.inverse with
  | .one inv => .one (S.mul inv)
  | .two below above =>
    let a := S.mul below
    let b := S.mul above
    if a.isEmpty then .one b
    else if b.isEmpty then .one a
    else if (a.inter b).isEmpty then .two a b
    else .one (a.hull b)

/-! ### What the operations mean -/

section

variable (S T : Stored)

theorem toInterval_neg : S.neg.toInterval = S.toInterval.neg := by
  rw [neg, toInterval_ofBounds, Bound.toEndpoint_neg, Bound.toEndpoint_neg]
  rfl

theorem toInterval_add : (S.add T).toInterval = S.toInterval.add T.toInterval := by
  unfold add Interval.add
  rw [isEmpty_eq, isEmpty_eq]
  split
  · rfl
  · rw [toInterval_ofBounds, Bound.toEndpoint_add, Bound.toEndpoint_add]
    rfl

theorem toInterval_sub : (S.sub T).toInterval = S.toInterval.sub T.toInterval := by
  rw [sub, toInterval_add, toInterval_neg, Interval.sub]

theorem toInterval_abs : S.abs.toInterval = S.toInterval.abs := by
  unfold abs Interval.abs
  rw [isEmpty_eq, sign_eq]
  split
  · rfl
  cases S.toInterval.sign with
  | positive => rfl
  | negative => exact toInterval_neg S
  | zero =>
      show (ofBounds _ _).toInterval = _
      rw [toInterval_ofBounds, Bound.toEndpoint_outerUpper, Bound.toEndpoint_magnitude,
        Bound.toEndpoint_magnitude]
      rfl

theorem toInterval_pow (n : Nat) : (S.pow n).toInterval = S.toInterval.pow n := by
  unfold pow Interval.pow
  rw [isEmpty_eq, isNonnegative_eq, isNonpositive_eq]
  split
  · rfl
  split
  · rfl
  have hkept : (ofBounds (S.lower.pow n) (S.upper.pow n)).toInterval
      = ⟨S.toInterval.lower.pow n, S.toInterval.upper.pow n⟩ := by
    rw [toInterval_ofBounds, Bound.toEndpoint_pow, Bound.toEndpoint_pow]
    rfl
  split
  · exact hkept
  split
  · exact hkept
  split
  · rw [toInterval_ofBounds, Bound.toEndpoint_pow, Bound.toEndpoint_pow]
    rfl
  · rw [toInterval_ofBounds, Bound.toEndpoint_outerUpper, Bound.toEndpoint_pow,
      Bound.toEndpoint_pow]
    rfl

theorem toInterval_mul : (S.mul T).toInterval = S.toInterval.mul T.toInterval := by
  unfold mul Interval.mul
  rw [isEmpty_eq, isEmpty_eq]
  split
  · rfl
  · simp only [toInterval_ofBounds, Bound.toEndpoint_ofCorner, Bound.lowerCorner_eq,
      Bound.upperCorner_eq]
    rfl

theorem toInterval_hull : (S.hull T).toInterval = S.toInterval.hull T.toInterval := by
  unfold hull Interval.hull
  rw [isEmpty_eq, isEmpty_eq]
  split
  · rfl
  split
  · rfl
  · rw [toInterval_ofBounds, Bound.toEndpoint_outerLower, Bound.toEndpoint_outerUpper]
    rfl

omit S T in
/-- Two numbers that cross leave no room. -/
theorem isEmpty_of_crossed {b c : Bound}
    (h : (!b.kind.isInfinite && !c.kind.isInfinite && c.value < b.value) = true) :
    (ofBounds b c).isEmpty = true := by
  obtain ⟨l, k⟩ := b
  obtain ⟨r, m⟩ := c
  simp only [Bool.and_eq_true, Bool.not_eq_true', decide_eq_true_eq] at h
  obtain ⟨⟨hk, hm⟩, hlt⟩ := h
  simp [isEmpty, ofBounds, fromParts, hk, hm, hlt.le, hlt.ne']

theorem toInterval_inter : (S.inter T).toInterval = S.toInterval.inter T.toInterval := by
  have hmeant := toInterval_ofBounds (S.lower.innerLower T.lower) (S.upper.innerUpper T.upper)
  rw [Bound.toEndpoint_innerLower, Bound.toEndpoint_innerUpper] at hmeant
  show _ = if S.toInterval.isEmpty || T.toInterval.isEmpty || Interval.isEmpty ⟨_, _⟩ then _ else _
  rw [← isEmpty_eq, ← isEmpty_eq]
  unfold inter
  cases S.isEmpty || T.isEmpty with
  | true => rfl
  | false =>
      rw [Bool.false_or, if_neg Bool.false_ne_true]
      dsimp only
      split
      · rename_i hcrossed
        have hempty := isEmpty_of_crossed hcrossed
        rw [isEmpty_eq, hmeant] at hempty
        exact (if_pos hempty).symm
      · rw [isEmpty_eq, hmeant]
        split
        · rename_i hempty
          exact (if_pos hempty).symm
        · rename_i hsome
          exact hmeant.trans (if_neg hsome).symm

theorem toInterval_reciprocal : S.reciprocal.toInterval = S.toInterval.reciprocal := by
  unfold reciprocal Interval.reciprocal
  rw [isEmpty_eq]
  split
  · rfl
  · rw [toInterval_ofBounds, Bound.toEndpoint_reciprocal, Bound.toEndpoint_reciprocal]
    rfl

theorem map_toInterval_div :
    (S.div T).map toInterval = S.toInterval.div T.toInterval := by
  unfold div Interval.div
  rw [contains_eq, ← toInterval_reciprocal, ← toInterval_mul]
  split
  · rfl
  · rfl

theorem toParts_inverse : S.inverse.toParts = S.toInterval.inverse := by
  unfold inverse Interval.inverse
  rw [isEmpty_eq, contains_eq, hasNegative_eq, hasPositive_eq]
  split
  · rfl
  split
  · exact congrArg AlgebraicReals.Parts.one (toInterval_reciprocal S)
  have hbelow : (ofBounds ⟨0, .infinite⟩ S.lower.reciprocal).toInterval
      = ⟨.infinite, S.toInterval.lower.reciprocal⟩ := by
    rw [toInterval_ofBounds, Bound.toEndpoint_reciprocal]
    rfl
  have habove : (ofBounds S.upper.reciprocal ⟨0, .infinite⟩).toInterval
      = ⟨S.toInterval.upper.reciprocal, .infinite⟩ := by
    rw [toInterval_ofBounds, Bound.toEndpoint_reciprocal]
    rfl
  simp only [← hbelow, ← habove]
  cases S.toInterval.hasNegative <;> cases S.toInterval.hasPositive <;> rfl

theorem toParts_divParts : (S.divParts T).toParts = S.toInterval.divParts T.toInterval := by
  unfold divParts Interval.divParts
  rw [← toParts_inverse]
  cases T.inverse with
  | one inv => exact congrArg AlgebraicReals.Parts.one (toInterval_mul S inv)
  | two below above =>
      rw [show (Parts.two below above).toParts = .two below.toInterval above.toInterval from rfl]
      simp only [Interval.disjoint, ← toInterval_mul, ← toInterval_inter, ← isEmpty_eq]
      split
      · rfl
      split
      · rfl
      split
      · rfl
      · exact congrArg AlgebraicReals.Parts.one (toInterval_hull _ _)

end

/-! ### Infinite sides hold `0` -/

theorem tidy_empty : empty.Tidy :=
  tidy_fromParts _ _ _ _

section

variable (S T : Stored)

theorem tidy_neg : S.neg.Tidy :=
  tidy_ofBounds _ _

theorem tidy_add : (S.add T).Tidy := by
  unfold add
  split
  · exact tidy_empty
  · exact tidy_ofBounds _ _

theorem tidy_pow (n : Nat) : (S.pow n).Tidy := by
  unfold pow
  split_ifs
  · exact tidy_empty
  · exact tidy_fromParts _ _ _ _
  all_goals exact tidy_ofBounds _ _

theorem tidy_mul : (S.mul T).Tidy := by
  unfold mul
  split
  · exact tidy_empty
  · exact tidy_ofBounds _ _

theorem tidy_inter : (S.inter T).Tidy := by
  unfold inter
  dsimp only
  split_ifs
  · exact tidy_empty
  · exact tidy_empty
  · exact tidy_empty
  · exact tidy_ofBounds _ _

theorem tidy_reciprocal : S.reciprocal.Tidy := by
  unfold reciprocal
  split
  · exact tidy_empty
  · exact tidy_ofBounds _ _

variable {S T}

/-- An interval right of `0` is its own absolute value, with the number it holds at an
infinite side. -/
theorem Tidy.abs (hS : S.Tidy) : S.abs.Tidy := by
  unfold Stored.abs
  split
  · exact tidy_empty
  cases S.sign with
  | positive => exact hS
  | negative => exact tidy_neg S
  | zero => exact tidy_ofBounds _ _

theorem Tidy.hull (hS : S.Tidy) (hT : T.Tidy) : (S.hull T).Tidy := by
  unfold Stored.hull
  split
  · exact hT
  split
  · exact hS
  · exact tidy_ofBounds _ _

/-- Infinite sides hold `0` in all parts. -/
def Parts.Tidy (p : Parts) : Prop :=
  p.toPair.1.Tidy ∧ p.toPair.2.Tidy

theorem Parts.tidy_one {S : Stored} (hS : S.Tidy) : (Parts.one S).Tidy :=
  ⟨hS, tidy_empty⟩

variable (S T)

theorem tidy_inverse : S.inverse.Tidy := by
  unfold inverse
  split
  · exact Parts.tidy_one tidy_empty
  split
  · exact Parts.tidy_one (tidy_reciprocal S)
  cases S.hasNegative <;> cases S.hasPositive
  · exact Parts.tidy_one tidy_empty
  · exact Parts.tidy_one (tidy_ofBounds _ _)
  · exact Parts.tidy_one (tidy_ofBounds _ _)
  · exact ⟨tidy_ofBounds _ _, tidy_ofBounds _ _⟩

theorem tidy_divParts : (S.divParts T).Tidy := by
  unfold divParts
  cases T.inverse with
  | one inv => exact Parts.tidy_one (tidy_mul S inv)
  | two below above =>
      have ha := tidy_mul S below
      have hb := tidy_mul S above
      dsimp only
      split
      · exact Parts.tidy_one hb
      split
      · exact Parts.tidy_one ha
      split
      · exact ⟨ha, hb⟩
      · exact Parts.tidy_one (ha.hull hb)

theorem tidy_div {Q : Stored} (h : S.div T = .ok Q) : Q.Tidy := by
  unfold div at h
  split at h
  · cases h
  · cases h
    exact tidy_mul S T.reciprocal

end

end Stored

end AlgebraicReals
