import AlgebraicReals.Horner.Term

set_option autoImplicit false

/-! # Text of Horner terms

A node is written `x0^2 * (dependent) + independent`. Only the dependent part is
in brackets, and an exponent `1` is left out. -/

namespace AlgebraicReals.HornerTerm

/-- The exponent of a variable, left out if it is `1`. -/
def exponentChars (e : Nat) : List Char :=
  if e = 1 then [] else '^' :: Rational.digits e

/-- The text of a term as a list of characters. -/
def chars : HornerTerm → List Char
  | const c => Rational.chars c
  | node v e d i =>
    'x' :: Rational.digits v ++ exponentChars e ++ [' ', '*', ' ', '('] ++ d.chars
      ++ [')', ' ', '+', ' '] ++ i.chars

/-- The text of a term as a string. -/
def render (t : HornerTerm) : String :=
  String.ofList t.chars

end AlgebraicReals.HornerTerm
