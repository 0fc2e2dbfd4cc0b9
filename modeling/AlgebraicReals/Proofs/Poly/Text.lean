import Mathlib
import AlgebraicReals.Poly.Printer
import AlgebraicReals.Proofs.RationalText
import AlgebraicReals.Proofs.Poly.ToPolynomial

set_option autoImplicit false

/-! # The text of a polynomial determines it

A polynomial is the sum of its terms, and its text is the text of the list of terms: two steps
that lose nothing.

The terms are read from the text one at a time from its end, the one with the lowest power
first. A term has no blank in it and the sign in front of it stands between two, so the last
blank shows where the last term begins (`Text.split_last`). Within a term, the coefficient ends
where the letter `x` stands, and whether there is a coefficient, a letter and an exponent tells
the cases of the notation apart. -/

namespace AlgebraicReals

open Polynomial

/-- A number is determined by whether it is negative and by its absolute value. -/
theorem Rational.eq_of_magnitude_eq {c d : Rat} (hsign : c < 0 ↔ d < 0)
    (h : magnitude c = magnitude d) : c = d := by
  rw [magnitude, magnitude] at h
  split at h
  · rename_i hc
    rw [if_pos (hsign.mp hc)] at h
    exact neg_injective h
  · rename_i hc
    rwa [if_neg (mt hsign.mpr hc)] at h

theorem Rational.magnitude_nonneg (c : Rat) : 0 ≤ magnitude c := by
  rw [magnitude]
  split
  · rename_i hc
    exact neg_nonneg.mpr hc.le
  · rename_i hc
    exact not_lt.mp hc

namespace Poly

open Text

/-! ## The terms of a polynomial -/

/-- The terms from `x^k` on whose coefficient is not `0`, lower powers first. -/
def termsFrom (k : Nat) : List Rat → List (Nat × Rat)
  | [] => []
  | c :: cs => if c = 0 then termsFrom (k + 1) cs else (k, c) :: termsFrom (k + 1) cs

/-- The terms that are written, as powers with their coefficients. For the zero polynomial
this is the number `0`. -/
def terms (p : Poly) : List (Nat × Rat) :=
  if p.isZero then [(0, 0)] else termsFrom 0 p.coeffs

theorem sum_termsFrom (k : Nat) (cs : List Rat) :
    ((termsFrom k cs).map fun t => Polynomial.monomial t.1 t.2).sum
      = Polynomial.X ^ k * Coeffs.toPolynomial cs := by
  induction cs generalizing k with
  | nil => simp [termsFrom]
  | cons c cs ih =>
      have hcons : Polynomial.X ^ k * Coeffs.toPolynomial (c :: cs)
          = Polynomial.monomial k c + Polynomial.X ^ (k + 1) * Coeffs.toPolynomial cs := by
        rw [Coeffs.toPolynomial_cons, ← C_mul_X_pow_eq_monomial]
        ring
      rw [hcons, ← ih, termsFrom]
      split
      · rename_i hc
        rw [hc, monomial_zero_right, zero_add]
      · rw [List.map_cons, List.sum_cons]

/-- A polynomial is the sum of its terms. -/
theorem sum_terms (p : Poly) :
    (p.terms.map fun t => Polynomial.monomial t.1 t.2).sum = p.toPolynomial := by
  rw [terms]
  split
  · rename_i hz
    rw [(toPolynomial_eq_zero_iff p).mpr hz]
    simp
  · rw [sum_termsFrom, pow_zero, one_mul]
    rfl

theorem terms_injective : Function.Injective terms := by
  intro p q h
  apply toPolynomial_injective
  rw [← sum_terms, h, sum_terms]

/-! ## The text of a list of terms -/

/-- The text of a sum of terms. The list begins with the lowest power, the text ends with it. -/
def sumChars : List (Nat × Rat) → List Char
  | [] => []
  | t :: ts =>
    (if ts.isEmpty then leadingSignChars t.2 else sumChars ts ++ separatorChars t.2)
      ++ termChars t.1 (Rational.magnitude t.2)

theorem termChars_ne_nil (k : Nat) (m : Rat) : termChars k m ≠ [] := by
  rw [termChars]
  split
  · exact Rational.chars_ne_nil m
  · split
    · rw [powerChars]
      split <;> simp
    · simp

theorem sumChars_eq_nil_iff (ts : List (Nat × Rat)) : sumChars ts = [] ↔ ts = [] := by
  cases ts with
  | nil => simp [sumChars]
  | cons t ts => simp [sumChars, termChars_ne_nil]

theorem charsFrom_eq_sumChars (k : Nat) (cs : List Rat) :
    charsFrom k cs = sumChars (termsFrom k cs) := by
  induction cs generalizing k with
  | nil => rfl
  | cons c cs ih =>
      rw [charsFrom, termsFrom, ih]
      split
      · rfl
      · have hempty : (sumChars (termsFrom (k + 1) cs)).isEmpty
            = (termsFrom (k + 1) cs).isEmpty := by
          rw [Bool.eq_iff_iff, List.isEmpty_iff, List.isEmpty_iff, sumChars_eq_nil_iff]
        rw [sumChars, hempty]

theorem chars_eq_sumChars (p : Poly) : p.chars = sumChars p.terms := by
  rw [chars, terms]
  split
  · decide +kernel
  · exact charsFrom_eq_sumChars 0 p.coeffs

/-! ## Reading one term -/

/-- What stands before the letter in the text of a term. -/
def coefficientChars (k : Nat) (m : Rat) : List Char :=
  if k = 0 then Rational.chars m else if m = 1 then [] else Rational.chars m ++ ['*']

/-- The text of a term from the letter on. -/
def variableChars : Nat → List Char
  | 0 => []
  | 1 => ['x']
  | k + 2 => 'x' :: '^' :: Rational.digits (k + 2)

theorem variableChars_eq_powerChars {k : Nat} (hk : k ≠ 0) : variableChars k = powerChars k := by
  match k with
  | 1 => rfl
  | k + 2 => simp [variableChars, powerChars]

theorem termChars_eq (k : Nat) (m : Rat) :
    termChars k m = coefficientChars k m ++ variableChars k := by
  rw [termChars, coefficientChars]
  split
  · rename_i hk
    rw [hk, variableChars, List.append_nil]
  · rename_i hk
    rw [variableChars_eq_powerChars hk]
    split
    · rfl
    · simp

theorem isNumeral_or_of_mem_coefficientChars {k : Nat} {m : Rat} {c : Char}
    (hc : c ∈ coefficientChars k m) : Rational.IsNumeral c ∨ c = '*' := by
  rw [coefficientChars] at hc
  split at hc
  · exact .inl (Rational.isNumeral_of_mem_chars hc)
  · split at hc
    · cases hc
    · rcases List.mem_append.mp hc with hc | hc
      · exact .inl (Rational.isNumeral_of_mem_chars hc)
      · exact .inr (List.mem_singleton.mp hc)

theorem variableChars_injective : Function.Injective variableChars := by
  intro j k h
  match j, k with
  | 0, 0 => rfl
  | 1, 1 => rfl
  | j + 2, k + 2 => exact Rational.digits_injective (List.cons.inj (List.cons.inj h).2).2
  | 0, 1 | 0, k + 2 | 1, 0 | 1, k + 2 | j + 2, 0 | j + 2, 1 => simp [variableChars] at h

theorem coefficientChars_injective (k : Nat) : Function.Injective (coefficientChars k) := by
  intro m n h
  rw [coefficientChars, coefficientChars] at h
  split at h
  · exact Rational.chars_injective h
  · split at h
    · rename_i hm
      split at h
      · rename_i hn
        rw [hm, hn]
      · simp at h
    · split at h
      · simp at h
      · exact Rational.chars_injective (List.append_cancel_right h)

theorem stopsAt_variableChars (k : Nat) :
    StopsAt (fun c => Rational.IsNumeral c ∨ c = '*') (variableChars k) := by
  match k with
  | 0 => exact stopsAt_nil _
  | 1 => exact stopsAt_cons.mpr (by decide)
  | k + 2 => exact stopsAt_cons.mpr (by decide)

theorem termChars_inj {j k : Nat} {m n : Rat} (h : termChars j m = termChars k n) :
    j = k ∧ m = n := by
  rw [termChars_eq, termChars_eq] at h
  obtain ⟨hcoeff, hvar⟩ := split_run (fun _ => isNumeral_or_of_mem_coefficientChars)
    (fun _ => isNumeral_or_of_mem_coefficientChars) (stopsAt_variableChars j)
    (stopsAt_variableChars k) h
  obtain rfl := variableChars_injective hvar
  exact ⟨rfl, coefficientChars_injective j hcoeff⟩

/-! ## Reading all terms -/

theorem notMem_variableChars {c : Char} (hdigit : c.isDigit = false) (hletter : c ≠ 'x')
    (hpower : c ≠ '^') (k : Nat) : c ∉ variableChars k := by
  match k with
  | 0 => exact List.not_mem_nil
  | 1 => simpa [variableChars] using hletter
  | k + 2 =>
      have hdigits := Rational.notMem_digits hdigit (k + 2)
      simp [variableChars, hletter, hpower, hdigits]

theorem blank_notMem_termChars (k : Nat) (m : Rat) : ' ' ∉ termChars k m := by
  rw [termChars_eq, List.mem_append, not_or]
  constructor
  · intro hc
    exact absurd (isNumeral_or_of_mem_coefficientChars hc) (by decide)
  · exact notMem_variableChars (by decide) (by decide) (by decide) k

theorem sign_notMem_termChars (k : Nat) {m : Rat} (hm : 0 ≤ m) : '-' ∉ termChars k m := by
  have hchars := Rational.sign_notMem_chars hm
  rw [termChars_eq, List.mem_append, not_or]
  constructor
  · rw [coefficientChars]
    split
    · exact hchars
    · split <;> simp [hchars]
  · exact notMem_variableChars (by decide) (by decide) (by decide) k

theorem leadingSignChars_append_inj {c d : Rat} {j k : Nat}
    (h : leadingSignChars c ++ termChars j (Rational.magnitude c)
      = leadingSignChars d ++ termChars k (Rational.magnitude d)) : j = k ∧ c = d := by
  have hc := sign_notMem_termChars j (Rational.magnitude_nonneg c)
  have hd := sign_notMem_termChars k (Rational.magnitude_nonneg d)
  rw [leadingSignChars, leadingSignChars] at h
  split at h
  · rename_i hneg
    split at h
    · rename_i hneg'
      obtain ⟨hjk, hm⟩ := termChars_inj (List.cons.inj h).2
      exact ⟨hjk, Rational.eq_of_magnitude_eq (iff_of_true hneg hneg') hm⟩
    · -- the sign cannot stand in the term
      rw [List.nil_append] at h
      exact absurd (h ▸ List.mem_cons_self) hd
  · rename_i hneg
    split at h
    · rw [List.nil_append] at h
      exact absurd (h ▸ List.mem_cons_self) hc
    · rename_i hneg'
      obtain ⟨hjk, hm⟩ := termChars_inj h
      exact ⟨hjk, Rational.eq_of_magnitude_eq (iff_of_false hneg hneg') hm⟩

theorem blank_notMem_leadingSignChars (c : Rat) : ' ' ∉ leadingSignChars c := by
  rw [leadingSignChars]
  split <;> decide

/-- The two characters of a separator before its last blank. -/
def signMark (c : Rat) : List Char :=
  if c < 0 then [' ', '-'] else [' ', '+']

theorem separatorChars_eq (c : Rat) : separatorChars c = signMark c ++ [' '] := by
  rw [separatorChars, signMark]
  split <;> rfl

theorem length_signMark (c : Rat) : (signMark c).length = 2 := by
  rw [signMark]
  split <;> rfl

theorem neg_iff_of_signMark_eq {c d : Rat} (h : signMark c = signMark d) : c < 0 ↔ d < 0 := by
  rw [signMark, signMark] at h
  split at h
  · rename_i hc
    split at h
    · rename_i hd
      exact iff_of_true hc hd
    · simp at h
  · rename_i hc
    split at h
    · simp at h
    · rename_i hd
      exact iff_of_false hc hd

theorem sumChars_singleton (t : Nat × Rat) :
    sumChars [t] = leadingSignChars t.2 ++ termChars t.1 (Rational.magnitude t.2) := rfl

theorem sumChars_cons {ts : List (Nat × Rat)} (hts : ts ≠ []) (t : Nat × Rat) :
    sumChars (t :: ts)
      = (sumChars ts ++ signMark t.2) ++ ' ' :: termChars t.1 (Rational.magnitude t.2) := by
  rw [sumChars, List.isEmpty_eq_false_iff.mpr hts, separatorChars_eq]
  simp

/-- A single term has no blank in its text, two or more terms have. -/
theorem sumChars_singleton_ne {us : List (Nat × Rat)} (hus : us ≠ []) (t u : Nat × Rat) :
    sumChars [t] ≠ sumChars (u :: us) := by
  intro h
  have hblank : ' ' ∈ sumChars [t] := by
    rw [h, sumChars_cons hus]
    simp
  rw [sumChars_singleton, List.mem_append] at hblank
  exact hblank.elim (blank_notMem_leadingSignChars t.2) (blank_notMem_termChars t.1 _)

/-- **The text of a sum determines its terms.** -/
theorem sumChars_injective : Function.Injective sumChars := by
  intro ts us h
  induction ts generalizing us with
  | nil => exact ((sumChars_eq_nil_iff us).mp h.symm).symm
  | cons t ts ih =>
      cases us with
      | nil => exact (sumChars_eq_nil_iff (t :: ts)).mp h
      | cons u us =>
          by_cases hts : ts = []
          · by_cases hus : us = []
            · rw [hts, hus] at h ⊢
              obtain ⟨hpower, hcoeff⟩ := leadingSignChars_append_inj h
              rw [Prod.ext hpower hcoeff]
            · rw [hts] at h
              exact absurd h (sumChars_singleton_ne hus t u)
          · by_cases hus : us = []
            · rw [hus] at h
              exact absurd h.symm (sumChars_singleton_ne hts u t)
            · -- the last blank separates the last term from the others
              rw [sumChars_cons hts, sumChars_cons hus] at h
              obtain ⟨hfront, hterm⟩ := split_last (blank_notMem_termChars _ _)
                (blank_notMem_termChars _ _) h
              obtain ⟨hrest, hmark⟩ := List.append_inj' hfront
                ((length_signMark t.2).trans (length_signMark u.2).symm)
              obtain ⟨hpower, hmagnitude⟩ := termChars_inj hterm
              have hcoeff := Rational.eq_of_magnitude_eq (neg_iff_of_signMark_eq hmark) hmagnitude
              rw [Prod.ext hpower hcoeff, ih hrest]

/-- **The text of a polynomial determines it.** Two polynomials have the same text exactly if
they are equal. -/
theorem render_determines_polynomial (p q : Poly) : p.render = q.render ↔ p = q := by
  constructor
  · intro h
    have hchars : p.chars = q.chars := String.ofList_injective h
    rw [chars_eq_sumChars, chars_eq_sumChars] at hchars
    exact terms_injective (sumChars_injective hchars)
  · rintro rfl
    rfl

example : (ofCoeffs [2, -3 / 2, 0, 1]).render = "x^3 - 3/2*x + 2" := by decide +kernel

end Poly

end AlgebraicReals
