import Mathlib
import AlgebraicReals.Proofs.Poly.LongDivision
import AlgebraicReals.Proofs.Poly.SquareFree

set_option autoImplicit false

/-! # Polynomials are the elements of `ℚ[x]`

A polynomial has no zero at the end of its coefficients because its type says so, and an
operation may have to cut zeros off to keep to it. This module says where that is needed. The
operations are done once more on plain lists, which carry no condition: a product is added up
row by row in one list, divisions are done in place, and zeros are cut off only from sums,
products, multiples, derivatives and the results of a division. Opposites, and a dividend that
is returned as it is, are left as they are.

However polynomials are made from each other, the lists are the coefficients of the polynomials
(`Poly.Expr.coeffs?_eq`), so that no zero is ever left at the end. As the list is determined by
the values at rational numbers, equal polynomials are those with equal values. -/

namespace AlgebraicReals

open Polynomial

namespace Coeffs

/-! ## Products in one list -/

/-- Adds the rows of a product: a multiple of `q` for each coefficient of the other factor, from
place `i` on. Rows of zeros are left out. -/
def addRows? (q : List Rat) : Nat → List Rat → List Rat → Option (List Rat)
  | _, [], cs => some cs
  | i, a :: p, cs =>
    if a = 0 then addRows? q (i + 1) p cs
    else do
      let cs ← addRow? a i q cs
      addRows? q (i + 1) p cs

/-- The product of two lists, added up in one list. -/
def product? (p q : List Rat) : Option (List Rat) :=
  if p.isEmpty || q.isEmpty then some []
  else do
    let cs ← addRows? q 0 p (List.replicate (p.length + q.length - 1) 0)
    some (trim cs)

theorem addRows?_yields {q : List Rat} {i : Nat} {p cs : List Rat}
    (h : i + p.length + q.length ≤ cs.length + 1) :
    Yields (addRows? q i p cs) cs.length
      (toPolynomial cs + X ^ i * toPolynomial p * toPolynomial q) := by
  induction p generalizing i cs with
  | nil => exact ⟨cs, rfl, rfl, by simp⟩
  | cons a p ih =>
      rw [List.length_cons] at h
      rw [addRows?]
      split
      · rename_i ha
        have hroom : i + 1 + p.length + q.length ≤ cs.length + 1 := by omega
        obtain ⟨es, hes, hlength, hsum⟩ := ih hroom
        refine ⟨es, hes, hlength, ?_⟩
        rw [hsum, toPolynomial_cons, ha, C_0, pow_succ]
        ring
      · have hrow : i + q.length ≤ cs.length := by omega
        obtain ⟨bs, hbs, hlength, hsum⟩ := addRow?_yields a hrow
        have hroom : i + 1 + p.length + q.length ≤ bs.length + 1 := by omega
        obtain ⟨es, hes, hlength', hsum'⟩ := ih hroom
        refine ⟨es, ?_, hlength'.trans hlength, ?_⟩
        · rw [hbs]
          exact hes
        · rw [hsum', hsum, toPolynomial_cons, pow_succ]
          ring

/-! ## Divisors -/

/-- The multiple with leading coefficient `1`. -/
def monic? (p : List Rat) : Option (List Rat) :=
  if p.isEmpty then some []
  else do
    let c ← divide? 1 (p.getLastD 0)
    some (trim (scale c p))

theorem length_longDivision?_lt {p d q r : List Rat} (hd : ¬d.isEmpty = true)
    (h : longDivision? p d = some (q, r)) : r.length < d.length := by
  have hpos : 0 < d.length := List.length_pos_iff.mpr (by simpa using hd)
  rw [longDivision?, if_neg hd] at h
  split at h
  · cases h
    omega
  · obtain ⟨s, -, hs⟩ := Option.bind_eq_some_iff.mp h
    cases hs
    have hle := length_trim_le (s.remainder.take (d.length - 1))
    rw [List.length_take] at hle
    omega

/-- The monic greatest common divisor, by repeated division. -/
def gcd? (p q : List Rat) : Option (List Rat) :=
  if q.isEmpty then monic? p
  else
    match _h : longDivision? p q with
    | none => none
    | some (_, r) => gcd? q r
termination_by q.length
decreasing_by exact length_longDivision?_lt ‹_› _h

/-- The square-free part. Numbers and polynomials of degree `1` only get a new factor. -/
def squareFreePart? (p : List Rat) : Option (List Rat) :=
  if p.length - 1 ≤ 1 then monic? p
  else do
    let g ← gcd? p (trim (weighted 1 p.tail))
    let (q, _) ← longDivision? p g
    monic? q

end Coeffs

namespace Poly

open Coeffs

theorem trim_eq_coeffs {cs : List Rat} {p : Poly}
    (h : Coeffs.toPolynomial cs = p.toPolynomial) : trim cs = p.coeffs := by
  have hp : ofCoeffs cs = p := toPolynomial_injective ((toPolynomial_ofCoeffs cs).trans h)
  exact congrArg coeffs hp

/-- The opposite needs no cutting off. -/
theorem coeffs_neg (p : Poly) : (-p).coeffs = p.coeffs.map (- ·) := by
  have hmap : Coeffs.scale (-1) p.coeffs = p.coeffs.map (- ·) :=
    List.map_congr_left fun a _ => neg_one_mul a
  have hlast : (p.coeffs.map (- ·)).getLast? ≠ some 0 := by
    have hp := p.trimmed
    rw [List.getLast?_map]
    intro h
    obtain ⟨a, ha, ha0⟩ := Option.map_eq_some_iff.mp h
    rw [ha, neg_eq_zero.mp ha0] at hp
    exact hp rfl
  show trim (Coeffs.scale (-1) p.coeffs) = _
  rw [hmap, trim_eq_self hlast]

theorem product?_eq (p q : Poly) : product? p.coeffs q.coeffs = some (p * q).coeffs := by
  rw [product?]
  split
  · rename_i hz
    have hzero : p * q = zero := by
      apply toPolynomial_injective
      rw [toPolynomial_mul, toPolynomial_zero]
      rcases Bool.or_eq_true_iff.mp hz with hz | hz
      · rw [(toPolynomial_eq_zero_iff p).mpr hz, zero_mul]
      · rw [(toPolynomial_eq_zero_iff q).mpr hz, mul_zero]
    rw [hzero]
    rfl
  · set zeros := List.replicate (p.coeffs.length + q.coeffs.length - 1) (0 : Rat) with hzeros
    have hroom : 0 + p.coeffs.length + q.coeffs.length ≤ zeros.length + 1 := by
      rw [hzeros, List.length_replicate]
      omega
    obtain ⟨cs, hcs, -, hsum⟩ := addRows?_yields hroom
    rw [toPolynomial_replicate_zero, zero_add, pow_zero, one_mul] at hsum
    simp only [hcs, Option.bind_eq_bind, Option.bind_some]
    exact congrArg some (trim_eq_coeffs (hsum.trans (toPolynomial_mul p q).symm))

theorem monic?_eq (p : Poly) : monic? p.coeffs = some p.monic.coeffs := by
  rw [monic?]
  split
  · rename_i hz
    rw [(isZero_iff p).mp hz]
    decide +kernel
  · rename_i hz
    have hlead : p.coeffs.getLastD 0 ≠ 0 := leadingCoeff_ne_zero (Bool.eq_false_iff.mpr hz)
    rw [divide?, if_neg hlead]
    rfl

theorem gcd?_eq (p q : Poly) : gcd? p.coeffs q.coeffs = some (p.gcd q).coeffs := by
  induction p, q using gcd.induct with
  | case1 p q hq =>
      have hempty : q.coeffs.isEmpty = true := hq
      rw [gcd?, if_pos hempty, gcd, if_pos hq]
      exact monic?_eq p
  | case2 p q hq ih =>
      have hempty : ¬q.coeffs.isEmpty = true := hq
      have hdiv := longDivision?_eq p q
      rw [gcd?, if_neg hempty, gcd, if_neg hq]
      split
      · rename_i hnone
        rw [hnone] at hdiv
        cases hdiv
      · rename_i u r hsome
        rw [hsome] at hdiv
        cases hdiv
        exact ih

/-- A square that divides a polynomial of degree at most `1` is a number. -/
theorem squarefree_of_degree_le_one {p : Poly} (hp : p.isZero = false) (hdegree : p.degree ≤ 1) :
    Squarefree p.toPolynomial := by
  intro f hf
  have hp0 := toPolynomial_ne_zero hp
  have hf0 : f ≠ 0 := by
    rintro rfl
    rw [zero_mul, zero_dvd_iff] at hf
    exact hp0 hf
  have hle := natDegree_le_of_dvd hf hp0
  rw [natDegree_mul hf0 hf0, natDegree_toPolynomial] at hle
  have hfdegree : f.natDegree = 0 := by omega
  rw [isUnit_iff_degree_eq_zero, degree_eq_natDegree hf0, hfdegree]
  rfl

theorem squareFreePart_of_degree_le_one {p : Poly} (hdegree : p.degree ≤ 1) :
    p.squareFreePart = p.monic := by
  cases hp : p.isZero with
  | true =>
      rw [(isZero_iff p).mp hp, squareFreePart_zero]
      decide +kernel
  | false =>
      have hcoprime : IsCoprime p.toPolynomial p.derivative.toPolynomial := by
        rw [toPolynomial_derivative]
        exact PerfectField.separable_iff_squarefree.mpr (squarefree_of_degree_le_one hp hdegree)
      rw [squareFreePart, gcd_eq_one hcoprime, div_const_one]

theorem squareFreePart?_eq (p : Poly) :
    squareFreePart? p.coeffs = some p.squareFreePart.coeffs := by
  rw [squareFreePart?]
  split
  · rename_i hdegree
    rw [squareFreePart_of_degree_le_one hdegree]
    exact monic?_eq p
  · have hgcd : gcd? p.coeffs (trim (weighted 1 p.coeffs.tail))
        = some (p.gcd p.derivative).coeffs := gcd?_eq p p.derivative
    simp only [hgcd, longDivision?_eq, Option.bind_eq_bind, Option.bind_some]
    exact monic?_eq (p / p.gcd p.derivative)

/-! ## Polynomials made from each other

Each operation comes twice, on polynomials and on lists of coefficients. -/

/-- The polynomials that are made from numbers. -/
inductive Source where
  | coeffs (cs : List Rat)
  | integers (ns : List Int)
  | zero
  | const (c : Rat)
  | x
  | monomial (c : Rat) (k : Nat)

/-- The operations on one polynomial. -/
inductive Unary where
  | neg
  | scale (c : Rat)
  | derivative
  | monic
  | squareFreePart

/-- The operations on two polynomials. -/
inductive Binary where
  | add
  | sub
  | mul
  | quotient
  | remainder
  | gcd

def Source.make : Source → Poly
  | coeffs cs => ofCoeffs cs
  | integers ns => ofCoeffs (ns.map fun n => (n : Rat))
  | zero => Poly.zero
  | const c => Poly.const c
  | x => X
  | monomial c k => Poly.monomial c k

def Source.list : Source → List Rat
  | coeffs cs => trim cs
  | integers ns => trim (ns.map fun n => (n : Rat))
  | zero => []
  | const c => trim [c]
  | x => trim [0, 1]
  | monomial c k => trim (List.replicate k 0 ++ [c])

def Unary.apply (p : Poly) : Unary → Poly
  | neg => -p
  | scale c => p.scale c
  | derivative => p.derivative
  | monic => p.monic
  | squareFreePart => p.squareFreePart

def Unary.onCoeffs? (p : List Rat) : Unary → Option (List Rat)
  | neg => some (p.map (- ·))
  | scale c => some (trim (Coeffs.scale c p))
  | derivative => some (trim (weighted 1 p.tail))
  | monic => monic? p
  | squareFreePart => squareFreePart? p

def Binary.apply (p q : Poly) : Binary → Poly
  | add => p + q
  | sub => p - q
  | mul => p * q
  | quotient => p / q
  | remainder => p % q
  | gcd => p.gcd q

def Binary.onCoeffs? (p q : List Rat) : Binary → Option (List Rat)
  | add => some (trim (Coeffs.add p q))
  | sub => some (trim (Coeffs.add p (q.map (- ·))))
  | mul => product? p q
  | quotient => (longDivision? p q).map Prod.fst
  | remainder => (longDivision? p q).map Prod.snd
  | gcd => gcd? p q

theorem Source.list_eq (s : Source) : s.list = s.make.coeffs := by
  cases s <;> rfl

theorem Unary.onCoeffs?_eq (op : Unary) (p : Poly) :
    op.onCoeffs? p.coeffs = some (op.apply p).coeffs := by
  cases op with
  | neg => exact congrArg some (coeffs_neg p).symm
  | scale c => rfl
  | derivative => rfl
  | monic => exact monic?_eq p
  | squareFreePart => exact squareFreePart?_eq p

theorem Binary.onCoeffs?_eq (op : Binary) (p q : Poly) :
    op.onCoeffs? p.coeffs q.coeffs = some (op.apply p q).coeffs := by
  cases op with
  | add => rfl
  | sub =>
      rw [onCoeffs?, ← coeffs_neg]
      rfl
  | mul => exact product?_eq p q
  | quotient =>
      rw [onCoeffs?, longDivision?_eq]
      rfl
  | remainder =>
      rw [onCoeffs?, longDivision?_eq]
      rfl
  | gcd => exact gcd?_eq p q

/-- How a polynomial is made. -/
inductive Expr where
  | source (s : Source)
  | unary (op : Unary) (a : Expr)
  | binary (op : Binary) (a b : Expr)

/-- The polynomial. -/
def Expr.value : Expr → Poly
  | source s => s.make
  | unary op a => op.apply a.value
  | binary op a b => op.apply a.value b.value

/-- Its coefficients, if all goes well on lists. -/
def Expr.coeffs? : Expr → Option (List Rat)
  | source s => some s.list
  | unary op a => do
    let p ← a.coeffs?
    op.onCoeffs? p
  | binary op a b => do
    let p ← a.coeffs?
    let q ← b.coeffs?
    op.onCoeffs? p q

/-- **The lists are the coefficients.** -/
theorem Expr.coeffs?_eq (e : Expr) : e.coeffs? = some e.value.coeffs := by
  induction e with
  | source s => exact congrArg some s.list_eq
  | unary op a ha =>
      rw [coeffs?, ha]
      exact op.onCoeffs?_eq a.value
  | binary op a b ha hb =>
      rw [coeffs?, ha, hb]
      exact op.onCoeffs?_eq a.value b.value

/-! ## Laws -/

theorem eval_const (c x : Rat) : (const c).eval x = c := by
  rw [← eval_toPolynomial, toPolynomial_const, Polynomial.eval_C]

theorem derivative_add (p q : Poly) : (p + q).derivative = p.derivative + q.derivative := by
  apply toPolynomial_injective
  simp only [toPolynomial_derivative, toPolynomial_add, Polynomial.derivative_add]

theorem derivative_scale (c : Rat) (p : Poly) :
    (p.scale c).derivative = p.derivative.scale c := by
  apply toPolynomial_injective
  simp only [toPolynomial_derivative, toPolynomial_scale, Polynomial.derivative_C_mul]

theorem derivative_mul (p q : Poly) :
    (p * q).derivative = p.derivative * q + p * q.derivative := by
  apply toPolynomial_injective
  simp only [toPolynomial_derivative, toPolynomial_mul, toPolynomial_add, Polynomial.derivative_mul]

theorem eq_iff_forall_eval (p q : Poly) : p = q ↔ ∀ x : Rat, p.eval x = q.eval x := by
  constructor
  · rintro rfl x
    rfl
  · intro h
    apply toPolynomial_injective
    refine Polynomial.funext fun x => ?_
    rw [eval_toPolynomial, eval_toPolynomial, h x]

/-- **Polynomials are the elements of `ℚ[x]`.** However a polynomial is made, working on plain
lists succeeds and gives its coefficients, with no zero at the end. The value at a number keeps
to sums, differences, opposites, products and multiples; the derivative is linear and follows
the product rule; and polynomials are equal exactly if their values at all rational numbers
are. -/
theorem polynomials_are_canonical :
    (∀ e : Expr, ∃ cs, e.coeffs? = some cs ∧ cs.getLast? ≠ some 0 ∧ e.value.coeffs = cs)
      ∧ (∀ (p q : Poly) (c x : Rat),
          (const c).eval x = c
            ∧ (p + q).eval x = p.eval x + q.eval x
            ∧ (p - q).eval x = p.eval x - q.eval x
            ∧ (-p).eval x = -p.eval x
            ∧ (p * q).eval x = p.eval x * q.eval x
            ∧ (p.scale c).eval x = c * p.eval x)
      ∧ (∀ (p q : Poly) (c : Rat),
          (p + q).derivative = p.derivative + q.derivative
            ∧ (p.scale c).derivative = p.derivative.scale c
            ∧ (p * q).derivative = p.derivative * q + p * q.derivative)
      ∧ ∀ p q : Poly, p = q ↔ ∀ x : Rat, p.eval x = q.eval x := by
  refine ⟨fun e => ?_, fun p q c x => ?_, fun p q c => ?_, eq_iff_forall_eval⟩
  · exact ⟨e.value.coeffs, e.coeffs?_eq, e.value.trimmed, rfl⟩
  · exact ⟨eval_const c x, eval_add p q x, eval_sub p q x, eval_neg p x, eval_mul p q x,
      eval_scale c p x⟩
  · exact ⟨derivative_add p q, derivative_scale c p, derivative_mul p q⟩

end Poly

end AlgebraicReals
