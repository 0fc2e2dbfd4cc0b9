import AlgebraicReals.Poly.Basic

set_option autoImplicit false

/-! # Division and greatest common divisors

Euclidean division of polynomials, and what is built on it: the monic greatest
common divisor and the square-free part, which has the roots of a polynomial
each once. The remainder is shorter than the divisor by construction, which is
why repeated division ends. -/

namespace AlgebraicReals.Poly

/-- Quotient and remainder. Division by zero has quotient zero and leaves the
dividend. -/
def divMod (p d : Poly) : Poly × Poly :=
  if d.isZero then (zero, p)
  else
    let (q, r) := Coeffs.divMod d.coeffs p.coeffs
    (ofCoeffs q, ofCoeffs r)

/-- The quotient of the division by `d`. -/
def div (p d : Poly) : Poly :=
  (p.divMod d).1

/-- The remainder of the division by `d`. -/
def mod (p d : Poly) : Poly :=
  (p.divMod d).2

instance : Div Poly := ⟨div⟩

instance : Mod Poly := ⟨mod⟩

/-- A remainder has fewer coefficients than the divisor. -/
theorem length_coeffs_mod_lt (p d : Poly) (hd : d.isZero = false) :
    (p % d).coeffs.length < d.coeffs.length := by
  have hne : d.coeffs ≠ [] := by simpa [isZero] using hd
  show (p.divMod d).2.coeffs.length < d.coeffs.length
  simp only [divMod, hd]
  exact Nat.lt_of_le_of_lt (length_coeffs_ofCoeffs_le _)
    (Coeffs.length_divMod_snd_lt d.coeffs p.coeffs hne)

/-- The multiple with leading coefficient `1`; zero stays zero. -/
def monic (p : Poly) : Poly :=
  p.scale (1 / p.leadingCoeff)

/-- The monic greatest common divisor, zero only for two zeros. -/
def gcd (p q : Poly) : Poly :=
  if q.isZero then p.monic else gcd q (p % q)
termination_by q.coeffs.length
decreasing_by exact length_coeffs_mod_lt p q (by simp_all)

/-- The monic polynomial with the same roots, each of them simple. -/
def squareFreePart (p : Poly) : Poly :=
  (p / p.gcd p.derivative).monic

end AlgebraicReals.Poly
