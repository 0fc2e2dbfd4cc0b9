import AlgebraicReals.Interval.Arithmetic
import AlgebraicReals.Poly.Basic

set_option autoImplicit false

/-! # Horner terms

A Horner term is a nested expression `x^e · dependent + independent` over
numbered variables. Evaluating it over intervals uses each power of a variable
once, which gives tighter ranges than the expanded polynomial.

A polynomial in one variable becomes a chain of such nodes, one for each
coefficient that is not zero; the zeros in between only raise an exponent.
Exponents are words of 32 bits, so that the form stands for the polynomial up to
degree `2^32 - 1` only. -/

namespace AlgebraicReals

/-- A polynomial expression in nested form. -/
inductive HornerTerm where
  | const (value : Rat)
  | node (var exponent : Nat) (dependent independent : HornerTerm)
deriving DecidableEq

/-- The ranges of variables: those assigned one, and a common range for the
others. -/
structure Ranges where
  /-- The variables with a range of their own. -/
  assigned : List (Nat × Interval)
  /-- The range of every other variable. -/
  fallback : Interval

namespace Ranges

/-- No variable has a range of its own. -/
def ofFallback (fallback : Interval) : Ranges :=
  ⟨[], fallback⟩

/-- The same ranges except that of one variable. -/
def assign (R : Ranges) (v : Nat) (I : Interval) : Ranges :=
  ⟨(v, I) :: R.assigned.filter (fun entry => entry.1 ≠ v), R.fallback⟩

/-- The range of a variable. -/
def get (R : Ranges) (v : Nat) : Interval :=
  (R.assigned.lookup v).getD R.fallback

/-- One variable has the given range and the others any value. -/
def single (v : Nat) (I : Interval) : Ranges :=
  (ofFallback .line).assign v I

/-- The number of variables with a range of their own. -/
def size (R : Ranges) : Nat :=
  R.assigned.length

/-- Whether no variable has a range of its own. -/
def isEmpty (R : Ranges) : Bool :=
  R.assigned.isEmpty

end Ranges

namespace HornerTerm

/-- Whether the term is a number. -/
def isConst : HornerTerm → Bool
  | const _ => true
  | node _ _ _ _ => false

/-- A range of the term's values while its variables run over theirs. -/
def enclose (R : Ranges) : HornerTerm → Interval
  | const c => .point c
  | node v e d i => (((R.get v).pow e).mul (d.enclose R)).add (i.enclose R)

/-- The value of the term, if all its variables have one. -/
def evalAt (values : Nat → Option Rat) : HornerTerm → Option Rat
  | const c => some c
  | node v e d i => do
    let x ← values v
    let y ← d.evalAt values
    let z ← i.evalAt values
    return x ^ e * y + z

/-! ## The Horner form of a polynomial -/

/-- An exponent as it is held in a word of 32 bits. -/
def exponentWord (n : Nat) : Nat :=
  n % UInt32.size

theorem exponentWord_of_lt {n : Nat} (h : n < UInt32.size) : exponentWord n = n :=
  Nat.mod_eq_of_lt h

/-- A list of coefficients as `x^n · t`, where the constant term of `t` is not
zero; there is none if all coefficients are zero. -/
def factorLowest (v : Nat) : List Rat → Option (Nat × HornerTerm)
  | [] => none
  | a :: p =>
    match factorLowest v p with
    | none => if a = 0 then none else some (0, const a)
    | some (n, t) =>
      if a = 0 then some (n + 1, t)
      else some (0, node v (exponentWord (n + 1)) t (const a))

/-- The Horner form of a polynomial in the variable `v`. -/
def ofPoly (v : Nat) (p : Poly) : HornerTerm :=
  match factorLowest v p.coeffs with
  | none => const 0
  | some (0, t) => t
  | some (n + 1, t) => node v (exponentWord (n + 1)) t (const 0)

end HornerTerm

end AlgebraicReals
