import Mathlib
import AlgebraicReals.Proofs.Poly.Euclid

set_option autoImplicit false

/-! # Long division in place

Quotient and remainder are determined by `p = q·d + r` and the degree of `r`
(`Poly.divMod_eq_iff`), so that there is one division, however it is computed.

The other way to compute it works on two lists of fixed length and no others: the remainder
takes the place of the dividend, and the quotient is filled in from its highest place down. Each
place takes a multiple of the divisor off the remainder, which clears one more of its entries.
Here every entry is looked up and written under a check that it exists, and every division of
numbers under a check that the divisor is not `0`, so that an answer (`Poly.longDivision?_eq`)
means that no check has failed.

The invariant is `Tableau.Divides`: what is taken off goes to the quotient, the entries of the
quotient that are still to come are `0`, and so are those of the remainder that have been dealt
with. At the end only the entries below the degree of the divisor are left, which is why cutting
the others off loses nothing. -/

namespace AlgebraicReals

open Polynomial

namespace Coeffs

/-! ## Checked steps -/

/-- Writes an entry. There is no result if the list has no such entry. -/
def write? (i : Nat) (a : Rat) (cs : List Rat) : Option (List Rat) :=
  if i < cs.length then some (cs.set i a) else none

/-- The quotient of two numbers, if the divisor is not `0`. -/
def divide? (a b : Rat) : Option Rat :=
  if b = 0 then none else some (a / b)

/-- Adds `f` times the list `d` to the entries from `k` on, one after the other. -/
def addRow? (f : Rat) : Nat → List Rat → List Rat → Option (List Rat)
  | _, [], cs => some cs
  | k, a :: d, cs => do
    let c ← cs[k]?
    let cs ← write? k (c + f * a) cs
    addRow? f (k + 1) d cs

/-- The two lists that a long division works on. -/
structure Tableau where
  /-- The quotient so far. -/
  quotient : List Rat
  /-- What is left of the dividend. -/
  remainder : List Rat

/-- The place `k` of the quotient: takes off the multiple of `x^k·d` that clears the highest
entry still there. -/
def divisionStep? (d : List Rat) (k : Nat) (s : Tableau) : Option Tableau := do
  let top ← s.remainder[k + (d.length - 1)]?
  let f ← divide? top (d.getLastD 0)
  if f = 0 then
    some s
  else
    let remainder ← addRow? (-f) k d s.remainder
    let quotient ← write? k f s.quotient
    some ⟨quotient, remainder⟩

/-- The places below `k`, the highest first. -/
def divisionSteps? (d : List Rat) : Nat → Tableau → Option Tableau
  | 0, s => some s
  | k + 1, s => do
    let s ← divisionStep? d k s
    divisionSteps? d k s

/-- Quotient and remainder of lists of coefficients. A dividend shorter than the divisor is the
remainder as it is, and so is every dividend if there is no divisor. -/
def longDivision? (p d : List Rat) : Option (List Rat × List Rat) :=
  if d.isEmpty then some ([], p)
  else if p.length ≤ d.length - 1 then some ([], p)
  else do
    let n := p.length - (d.length - 1)
    let s ← divisionSteps? d n ⟨List.replicate n 0, p⟩
    some (trim s.quotient, trim (s.remainder.take (d.length - 1)))

/-! ## Rows -/

theorem toPolynomial_set {cs : List Rat} {i : Nat} (hi : i < cs.length) (a : Rat) :
    toPolynomial (cs.set i a) = toPolynomial cs + C (a - cs.getD i 0) * X ^ i := by
  induction cs generalizing i with
  | nil => simp at hi
  | cons c cs ih =>
      cases i with
      | zero =>
          simp only [List.set_cons_zero, toPolynomial_cons, List.getD_cons_zero, C_sub, pow_zero]
          ring
      | succ i =>
          simp only [List.set_cons_succ, toPolynomial_cons, List.getD_cons_succ,
            ih (Nat.lt_of_succ_lt_succ hi), pow_succ]
          ring

/-- The result of a checked operation: it exists, has the given length and stands for the given
polynomial. -/
def Yields (result : Option (List Rat)) (n : Nat) (f : ℚ[X]) : Prop :=
  ∃ cs, result = some cs ∧ cs.length = n ∧ toPolynomial cs = f

theorem write?_yields {cs : List Rat} {i : Nat} (hi : i < cs.length) (a : Rat) :
    Yields (write? i a cs) cs.length (toPolynomial cs + C (a - cs.getD i 0) * X ^ i) :=
  ⟨cs.set i a, if_pos hi, List.length_set, toPolynomial_set hi a⟩

/-- A row adds a multiple of `x^k·d`, and there is room for it as long as it does not reach
beyond the end of the list. -/
theorem addRow?_yields (f : Rat) {k : Nat} {d cs : List Rat} (hk : k + d.length ≤ cs.length) :
    Yields (addRow? f k d cs) cs.length (toPolynomial cs + C f * X ^ k * toPolynomial d) := by
  induction d generalizing k cs with
  | nil => exact ⟨cs, rfl, rfl, by simp⟩
  | cons a d ih =>
      have hlt : k < cs.length := by
        rw [List.length_cons] at hk
        omega
      obtain ⟨bs, hbs, hlength, hsum⟩ := write?_yields hlt (cs[k] + f * a)
      have hroom : k + 1 + d.length ≤ bs.length := by
        rw [List.length_cons] at hk
        omega
      obtain ⟨es, hes, hlength', hsum'⟩ := ih hroom
      refine ⟨es, ?_, hlength'.trans hlength, ?_⟩
      · simp only [addRow?, List.getElem?_eq_getElem hlt, Option.bind_eq_bind, Option.bind_some, hbs]
        exact hes
      · rw [hsum', hsum, List.getD_eq_getElem _ _ hlt, add_sub_cancel_left, toPolynomial_cons,
          C_mul, pow_succ]
        ring

/-! ## The steps of the division -/

/-- The division of `p` by `d`, with the places below `k` still to come. -/
structure Tableau.Divides (p d : List Rat) (k : Nat) (s : Tableau) : Prop where
  sum : toPolynomial p = toPolynomial s.quotient * toPolynomial d + toPolynomial s.remainder
  length_quotient : s.quotient.length + (d.length - 1) = p.length
  length_remainder : s.remainder.length = p.length
  open_places : ∀ j < k, s.quotient.getD j 0 = 0
  cleared : ∀ j, k + (d.length - 1) ≤ j → s.remainder.getD j 0 = 0

theorem length_pos_of_getLastD_ne {d : List Rat} (hd : d.getLastD 0 ≠ 0) : 0 < d.length := by
  refine List.length_pos_iff.mpr ?_
  rintro rfl
  exact hd rfl

section

variable {p d : List Rat} {k : Nat} {s : Tableau}

/-- A step whose multiple is `0`: the entry it would clear is `0` already. -/
theorem Tableau.Divides.skip (h : s.Divides p d (k + 1))
    (htop : s.remainder.getD (k + (d.length - 1)) 0 = 0) : s.Divides p d k where
  sum := h.sum
  length_quotient := h.length_quotient
  length_remainder := h.length_remainder
  open_places := fun j hj => h.open_places j (by omega)
  cleared := by
    intro j hj
    rcases Nat.eq_or_lt_of_le hj with hj | hj
    · rw [← hj]
      exact htop
    · exact h.cleared j (by omega)

/-- A step that takes `f·x^k·d` off the remainder and notes `f` in the quotient. The leading
entry of the divisor clears one more entry of the remainder, and the divisor does not reach the
entries above it. -/
theorem Tableau.Divides.reduce {f : Rat} {s' : Tableau} (h : s.Divides p d (k + 1))
    (htop : s.remainder.getD (k + (d.length - 1)) 0 = f * d.getLastD 0)
    (hquotient : toPolynomial s'.quotient = toPolynomial s.quotient + C f * X ^ k)
    (hremainder : toPolynomial s'.remainder
      = toPolynomial s.remainder + C (-f) * X ^ k * toPolynomial d)
    (hlength : s'.quotient.length = s.quotient.length)
    (hlength' : s'.remainder.length = s.remainder.length) : s'.Divides p d k where
  sum := by
    rw [h.sum, hquotient, hremainder, C_neg]
    ring
  length_quotient := hlength ▸ h.length_quotient
  length_remainder := hlength'.trans h.length_remainder
  open_places := by
    intro j hj
    rw [← coeff_toPolynomial, hquotient, coeff_add, coeff_toPolynomial,
      h.open_places j (by omega), coeff_C_mul_X_pow, if_neg (by omega), add_zero]
  cleared := by
    intro j hj
    obtain ⟨i, rfl⟩ : ∃ i, j = i + k := ⟨j - k, by omega⟩
    -- from place `k` on the entries change by those of the divisor
    have hentry : s'.remainder.getD (i + k) 0
        = s.remainder.getD (i + k) 0 - f * d.getD i 0 := by
      rw [← coeff_toPolynomial, hremainder, coeff_add, coeff_toPolynomial, mul_assoc, coeff_C_mul,
        coeff_X_pow_mul, coeff_toPolynomial]
      ring
    rw [hentry]
    rcases Nat.eq_or_lt_of_le hj with hi | hi
    · obtain rfl : i = d.length - 1 := by omega
      rw [Nat.add_comm, htop, getLastD_eq_getD, sub_self]
    · rw [h.cleared (i + k) (by omega), List.getD_eq_default _ _ (by omega), mul_zero, sub_zero]

/-- **One step of the division.** No check fails as long as the place is one of the quotient,
and one more entry of the remainder is cleared. -/
theorem divisionStep?_divides (hd : d.getLastD 0 ≠ 0) (h : s.Divides p d (k + 1))
    (hk : k + (d.length - 1) < p.length) :
    ∃ s', divisionStep? d k s = some s' ∧ s'.Divides p d k := by
  have hpos := length_pos_of_getLastD_ne hd
  have hlength := h.length_remainder
  have hlength' := h.length_quotient
  have hlt : k + (d.length - 1) < s.remainder.length := by omega
  set top := s.remainder[k + (d.length - 1)] with htop
  set f := top / d.getLastD 0 with hf
  have hget : s.remainder.getD (k + (d.length - 1)) 0 = top := List.getD_eq_getElem _ _ hlt
  have hdivide : divide? top (d.getLastD 0) = some f := if_neg hd
  by_cases hzero : f = 0
  · refine ⟨s, ?_, h.skip ?_⟩
    · simp only [divisionStep?, List.getElem?_eq_getElem hlt, ← htop, Option.bind_eq_bind,
        Option.bind_some, hdivide, hzero, if_true]
    · rw [hget]
      exact (div_eq_zero_iff.mp hzero).resolve_right hd
  · have hroom : k + d.length ≤ s.remainder.length := by omega
    have hplace : k < s.quotient.length := by omega
    obtain ⟨rs, hrs, hrslength, hremainder⟩ := addRow?_yields (-f) hroom
    obtain ⟨qs, hqs, hqslength, hquotient⟩ := write?_yields hplace f
    rw [h.open_places k (Nat.lt_succ_self k), sub_zero] at hquotient
    refine ⟨⟨qs, rs⟩, ?_, h.reduce ?_ hquotient hremainder hqslength hrslength⟩
    · simp only [divisionStep?, List.getElem?_eq_getElem hlt, ← htop, Option.bind_eq_bind,
        Option.bind_some, hdivide, hzero, if_false, hrs, hqs]
    · rw [hget, hf]
      exact (div_mul_cancel₀ top hd).symm

/-- **All steps of the division.** -/
theorem divisionSteps?_divides (hd : d.getLastD 0 ≠ 0) (h : s.Divides p d k)
    (hk : k + (d.length - 1) ≤ p.length) :
    ∃ s', divisionSteps? d k s = some s' ∧ s'.Divides p d 0 := by
  induction k generalizing s with
  | zero => exact ⟨s, rfl, h⟩
  | succ k ih =>
      obtain ⟨s₁, hstep, h₁⟩ := divisionStep?_divides hd h (by omega)
      obtain ⟨s₂, hsteps, h₂⟩ := ih h₁ (by omega)
      refine ⟨s₂, ?_, h₂⟩
      rw [divisionSteps?, hstep]
      exact hsteps

end

theorem getD_replicate_zero (n j : Nat) : (List.replicate n (0 : Rat)).getD j 0 = 0 := by
  rw [List.getD_eq_getElem?_getD, List.getElem?_replicate]
  split <;> rfl

theorem toPolynomial_replicate_zero (n : Nat) : toPolynomial (List.replicate n 0) = 0 := by
  ext j
  rw [coeff_toPolynomial, coeff_zero, getD_replicate_zero]

/-- At the beginning nothing is taken off. -/
theorem Tableau.divides_start {p d : List Rat} (hp : d.length - 1 ≤ p.length) :
    Tableau.Divides p d (p.length - (d.length - 1))
      ⟨List.replicate (p.length - (d.length - 1)) 0, p⟩ where
  sum := by rw [toPolynomial_replicate_zero, zero_mul, zero_add]
  length_quotient := by
    rw [List.length_replicate]
    omega
  length_remainder := rfl
  open_places := fun j _ => getD_replicate_zero _ j
  cleared := by
    intro j hj
    have hlen : p.length ≤ j := by omega
    exact List.getD_eq_default _ _ hlen

/-- Nothing is lost when only the first `n` entries are kept and the others are `0`. -/
theorem toPolynomial_take {cs : List Rat} {n : Nat} (h : ∀ j, n ≤ j → cs.getD j 0 = 0) :
    toPolynomial (cs.take n) = toPolynomial cs := by
  ext j
  rw [coeff_toPolynomial, coeff_toPolynomial, List.getD_eq_getElem?_getD, List.getElem?_take]
  split
  · rw [List.getD_eq_getElem?_getD]
  · rename_i hj
    exact (h j (not_lt.mp hj)).symm

end Coeffs

namespace Poly

open Coeffs

/-! ## There is one quotient and one remainder -/

theorem divMod_zero (p : Poly) : p.divMod zero = (zero, p) := rfl

theorem length_coeffs_lt_iff {d : Poly} (hd : d.isZero = false) (r : Poly) :
    r.coeffs.length < d.coeffs.length ↔ r = zero ∨ r.degree < d.degree := by
  have hdpos : 0 < d.coeffs.length := List.length_pos_iff.mpr (by simpa [isZero] using hd)
  by_cases hr : r = zero
  · rw [hr]
    exact iff_of_true hdpos (.inl rfl)
  · have hrpos : 0 < r.coeffs.length :=
      List.length_pos_iff.mpr (by simpa [isZero] using isZero_eq_false_of_ne hr)
    rw [or_iff_right hr, degree, degree]
    omega

/-- **Division with remainder.** A pair is the result of the division exactly if it adds up to
the dividend and the remainder has fewer coefficients than the divisor. -/
theorem divMod_eq_iff {p d : Poly} (hd : d.isZero = false) (q r : Poly) :
    p.divMod d = (q, r) ↔ p = q * d + r ∧ r.coeffs.length < d.coeffs.length := by
  have hsum := toPolynomial_div_add_mod p d hd
  constructor
  · intro h
    have hq : p / d = q := congrArg Prod.fst h
    have hr : p % d = r := congrArg Prod.snd h
    rw [← hq, ← hr]
    refine ⟨toPolynomial_injective ?_, length_coeffs_mod_lt p d hd⟩
    rwa [toPolynomial_add, toPolynomial_mul]
  · rintro ⟨h, hr⟩
    have hsum' := congrArg toPolynomial h
    rw [toPolynomial_add, toPolynomial_mul] at hsum'
    -- the two remainders differ by a multiple of the divisor, and are both too short for it
    have hdiff : (p % d).toPolynomial - r.toPolynomial
        = (q.toPolynomial - (p / d).toPolynomial) * d.toPolynomial := by
      linear_combination hsum' - hsum
    have hlt : ((p % d).toPolynomial - r.toPolynomial).degree < d.toPolynomial.degree :=
      (degree_sub_le _ _).trans_lt
        (max_lt (degree_toPolynomial_mod_lt p d hd) (degree_toPolynomial_lt hd hr))
    have hmod : (p % d).toPolynomial - r.toPolynomial = 0 :=
      eq_zero_of_dvd_of_degree_lt (hdiff ▸ dvd_mul_left _ _) hlt
    rw [hmod] at hdiff
    have hdiv : q.toPolynomial - (p / d).toPolynomial = 0 :=
      (mul_eq_zero.mp hdiff.symm).resolve_right (toPolynomial_ne_zero hd)
    exact Prod.ext (toPolynomial_injective (sub_eq_zero.mp hdiv).symm)
      (toPolynomial_injective (sub_eq_zero.mp hmod))

/-! ## The division in place -/

theorem divMod_of_length_lt {p d : Poly} (hd : d.isZero = false)
    (h : p.coeffs.length < d.coeffs.length) : p.divMod d = (zero, p) := by
  refine (divMod_eq_iff hd zero p).mpr ⟨toPolynomial_injective ?_, h⟩
  rw [toPolynomial_add, toPolynomial_mul, toPolynomial_zero, zero_mul, zero_add]

theorem divMod_of_divides {p d : Poly} (hd : d.isZero = false) {s : Tableau}
    (h : s.Divides p.coeffs d.coeffs 0) :
    p.divMod d = (ofCoeffs s.quotient, ofCoeffs (s.remainder.take (d.coeffs.length - 1))) := by
  have hpos := length_pos_of_getLastD_ne (leadingCoeff_ne_zero hd)
  have htake : Coeffs.toPolynomial (s.remainder.take (d.coeffs.length - 1))
      = Coeffs.toPolynomial s.remainder :=
    toPolynomial_take fun j hj => h.cleared j (by omega)
  refine (divMod_eq_iff hd _ _).mpr ⟨toPolynomial_injective ?_, ?_⟩
  · rw [toPolynomial_add, toPolynomial_mul, toPolynomial_ofCoeffs, toPolynomial_ofCoeffs, htake]
    exact h.sum
  · have hle := length_coeffs_ofCoeffs_le (s.remainder.take (d.coeffs.length - 1))
    rw [List.length_take] at hle
    omega

/-- **The division in place computes the division.** Every check it makes holds. -/
theorem longDivision?_eq (p d : Poly) :
    longDivision? p.coeffs d.coeffs
      = some ((p.divMod d).1.coeffs, (p.divMod d).2.coeffs) := by
  cases hd : d.isZero with
  | true =>
      obtain rfl := (isZero_iff d).mp hd
      rfl
  | false =>
      have hlast : d.coeffs.getLastD 0 ≠ 0 := leadingCoeff_ne_zero hd
      have hpos := length_pos_of_getLastD_ne hlast
      have hnonempty : ¬d.coeffs.isEmpty = true := Bool.eq_false_iff.mp hd
      rw [longDivision?, if_neg hnonempty]
      split
      · rename_i hshort
        rw [divMod_of_length_lt hd (by omega)]
        rfl
      · rename_i hlong
        have hfits : d.coeffs.length - 1 ≤ p.coeffs.length := by omega
        obtain ⟨s, hs, hdiv⟩ :=
          divisionSteps?_divides hlast (Tableau.divides_start hfits) (by omega)
        rw [divMod_of_divides hd hdiv]
        simp only [hs, Option.bind_eq_bind, Option.bind_some]
        rfl

/-- **Division with remainder is correct.** Division by zero has quotient zero and leaves the
dividend. Otherwise the result is the only pair `(q, r)` with `p = q·d + r` whose remainder is
zero or of smaller degree than the divisor, and the remainder is zero if the divisor is a number.
The division in place gives the coefficients of the same two polynomials, with no zeros at the
end: it looks up and writes no entry that its lists do not have, and never divides by `0`. -/
theorem divMod_division_with_remainder (p d : Poly) :
    p.divMod zero = (zero, p)
      ∧ (d ≠ zero → ∀ q r : Poly,
          p.divMod d = (q, r) ↔ p = q * d + r ∧ (r = zero ∨ r.degree < d.degree))
      ∧ (d ≠ zero → d.isConstant = true → (p.divMod d).2 = zero)
      ∧ longDivision? p.coeffs d.coeffs
          = some ((p.divMod d).1.coeffs, (p.divMod d).2.coeffs) := by
  refine ⟨divMod_zero p, fun hd q r => ?_, fun hd hconst => ?_, longDivision?_eq p d⟩
  · have hz := isZero_eq_false_of_ne hd
    rw [divMod_eq_iff hz, length_coeffs_lt_iff hz]
  · have hz := isZero_eq_false_of_ne hd
    have hlt := (length_coeffs_lt_iff hz _).mp (length_coeffs_mod_lt p d hz)
    rw [(isConstant_iff d).mp hconst] at hlt
    exact hlt.resolve_right (Nat.not_lt_zero _)

/-- The division of `x³ - 2·x + 1` by `2·x - 1`: as the product of the divisor with
`x²/2 + x/4 - 7/8` lacks `1/8`, these are quotient and remainder, and they are what the division
in place arrives at. -/
theorem divMod_division_with_remainder_cubic :
    ofCoeffs [-1, 2] ≠ zero
      ∧ (ofCoeffs [1, -2, 0, 1]).divMod (ofCoeffs [-1, 2])
          = (ofCoeffs [-7 / 8, 1 / 4, 1 / 2], const (1 / 8))
      ∧ longDivision? [1, -2, 0, 1] [-1, 2] = some ([-7 / 8, 1 / 4, 1 / 2], [1 / 8]) := by
  have hne : ofCoeffs [-1, 2] ≠ zero := by decide +kernel
  obtain ⟨-, hiff, -, hplace⟩ :=
    divMod_division_with_remainder (ofCoeffs [1, -2, 0, 1]) (ofCoeffs [-1, 2])
  have hdiv := (hiff hne (ofCoeffs [-7 / 8, 1 / 4, 1 / 2]) (const (1 / 8))).mpr (by decide +kernel)
  rw [hdiv] at hplace
  exact ⟨hne, hdiv, hplace.trans (by decide +kernel)⟩

end Poly

end AlgebraicReals
