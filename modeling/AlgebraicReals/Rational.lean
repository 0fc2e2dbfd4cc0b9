import AlgebraicReals.Sign

set_option autoImplicit false

/-! # Rational numbers

The few facts about rational numbers that the rest of the library asks for:
their order as an `Ordering`, midpoints, whether a number is an integer, and
their text. A reduced fraction is written `n/d`, an integer just `n`; the text
is built as a list of characters, so that what it determines can be argued
character by character, and read back from such a list. -/

namespace AlgebraicReals.Rational

/-- How two rationals compare. -/
def order (x y : Rat) : Ordering :=
  compareOfLessAndEq x y

/-- The absolute value. -/
def magnitude (x : Rat) : Rat :=
  if x < 0 then -x else x

/-- Twice a number. -/
def double (x : Rat) : Rat :=
  x * 2

/-- The number half way between two numbers. -/
def midpoint (x y : Rat) : Rat :=
  (x + y) / 2

/-- Whether a rational is an integer. -/
def isIntegral (x : Rat) : Bool :=
  x.den == 1

/-! ## Text -/

/-- The decimal digits of a natural number. -/
def digits (n : Nat) : List Char :=
  Nat.toDigits 10 n

/-- The decimal text of an integer; only negative ones carry a sign. -/
def integerChars (n : Int) : List Char :=
  if n < 0 then '-' :: digits n.natAbs else digits n.natAbs

/-- The text of a rational: the numerator, then `/` and the denominator unless
that is `1`. -/
def chars (x : Rat) : List Char :=
  if x.den = 1 then integerChars x.num else integerChars x.num ++ '/' :: digits x.den

/-- The text of a rational as a string. -/
def render (x : Rat) : String :=
  String.ofList (chars x)

/-! ## Reading

Reading is more lenient than writing: a fraction need not be reduced, leading
zeros are skipped, and the denominator may carry the sign. -/

/-- The value of a list of decimal digits, continued from `n`. -/
def digitsValue (n : Nat) : List Char → Nat
  | [] => n
  | c :: cs => digitsValue (10 * n + (c.toNat - '0'.toNat)) cs

/-- Reads one or more digits. -/
def natural? (cs : List Char) : Option Nat :=
  if cs.isEmpty || !cs.all Char.isDigit then none else some (digitsValue 0 cs)

/-- Reads a natural number with or without a minus sign. -/
def integer? : List Char → Option Int
  | '-' :: cs => (natural? cs).map fun n => -(n : Int)
  | cs => (natural? cs).map fun n => (n : Int)

/-- Reads an integer or a fraction of two integers with a denominator other than
`0`. -/
def ofChars? (cs : List Char) : Option Rat :=
  match cs.dropWhile (· ≠ '/') with
  | [] => (integer? cs).map fun n => (n : Rat)
  | _ :: rest =>
    match integer? (cs.takeWhile (· ≠ '/')), integer? rest with
    | some n, some d => if d = 0 then none else some ((n : Rat) / (d : Rat))
    | _, _ => none

/-- Reads a rational from a string. -/
def ofString? (s : String) : Option Rat :=
  ofChars? s.toList

end AlgebraicReals.Rational
