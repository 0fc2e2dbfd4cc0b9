import AlgebraicReals.Rational
import AlgebraicReals.Poly.Basic

set_option autoImplicit false

/-! # Text of polynomials

Terms are written from the highest power down, such as `x^3 - 3/2*x + 2`. Zero
terms are left out, a coefficient `1` is left out except in the constant term,
and signs become the separators between terms. -/

namespace AlgebraicReals.Poly

/-- The power `x^k` for `k` at least `1`. -/
def powerChars (k : Nat) : List Char :=
  if k = 1 then ['x'] else 'x' :: '^' :: Rational.digits k

/-- The text of `m·x^k` for a positive `m`. -/
def termChars (k : Nat) (m : Rat) : List Char :=
  if k = 0 then Rational.chars m
  else if m = 1 then powerChars k
  else Rational.chars m ++ '*' :: powerChars k

/-- The sign in front of the first term. -/
def leadingSignChars (c : Rat) : List Char :=
  if c < 0 then ['-'] else []

/-- The sign between two terms. -/
def separatorChars (c : Rat) : List Char :=
  if c < 0 then [' ', '-', ' '] else [' ', '+', ' ']

/-- The text of the terms from `x^k` on, higher powers first. -/
def charsFrom (k : Nat) : List Rat → List Char
  | [] => []
  | c :: cs =>
    let higher := charsFrom (k + 1) cs
    if c = 0 then higher
    else
      let sign := if higher.isEmpty then leadingSignChars c else higher ++ separatorChars c
      sign ++ termChars k (Rational.magnitude c)

/-- The text of a polynomial as a list of characters. -/
def chars (p : Poly) : List Char :=
  if p.isZero then ['0'] else charsFrom 0 p.coeffs

/-- The text of a polynomial as a string. -/
def render (p : Poly) : String :=
  String.ofList p.chars

end AlgebraicReals.Poly
