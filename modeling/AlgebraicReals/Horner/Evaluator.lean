import AlgebraicReals.Horner.Term

set_option autoImplicit false

/-! # Evaluators

Deciding the sign of a polynomial at an algebraic number needs two things from
polynomial evaluation: its value at a rational number, and some interval around
its values over an interval. An evaluator bundles the two. The one the library
uses itself, `Evaluator.horner`, evaluates the Horner form. -/

namespace AlgebraicReals

/-- A way to evaluate polynomials. -/
structure Evaluator where
  /-- An interval around all values over an interval. -/
  enclose : Poly → Interval → Interval
  /-- The value at a number. -/
  valueAt : Poly → Rat → Rat

/-- The range of a polynomial over an interval by its Horner form; over a single
point it is the value there. -/
def Poly.encloseHorner (p : Poly) (I : Interval) : Interval :=
  match I.point? with
  | some x => .point (p.eval x)
  | none => (HornerTerm.ofPoly 0 p).enclose (Ranges.single 0 I)

/-- Evaluation by the Horner form. -/
def Evaluator.horner : Evaluator where
  enclose := Poly.encloseHorner
  valueAt := Poly.eval

end AlgebraicReals
