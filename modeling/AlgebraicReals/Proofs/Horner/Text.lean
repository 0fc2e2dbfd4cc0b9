import Mathlib
import AlgebraicReals.Horner.Printer
import AlgebraicReals.Proofs.RationalText

set_option autoImplicit false

/-! # Horner terms can be read in one way only

Only the first part of a node stands in brackets, so the end of a term has to be found without
them. It can be: a term ends with a number, and what follows it is the end of the text or the
bracket that closes a part around it, neither of which goes on with a number. The statement
that carries the induction is therefore about a term and any such continuation
(`HornerTerm.chars_append_inj`). -/

namespace AlgebraicReals.HornerTerm

open Text

theorem exponentChars_append_inj {e f : Nat} {r s : List Char}
    (h : exponentChars e ++ ' ' :: r = exponentChars f ++ ' ' :: s) : e = f ∧ r = s := by
  have hstop : ∀ t : List Char, StopsAt (Char.isDigit · = true) (' ' :: t) := fun t =>
    stopsAt_cons.mpr (by decide)
  rw [exponentChars, exponentChars] at h
  split at h
  · rename_i he
    split at h
    · rename_i hf
      exact ⟨he.trans hf.symm, by simpa using h⟩
    · -- one exponent is left out, the other begins with `^`
      simp at h
  · split at h
    · simp at h
    · obtain ⟨hef, hrs⟩ := Rational.digits_append_inj (hstop r) (hstop s) (List.cons.inj h).2
      exact ⟨hef, (List.cons.inj hrs).2⟩

/-- The text of a node and what follows it, in the order in which it is read. -/
theorem chars_node_append (v e : Nat) (d i : HornerTerm) (r : List Char) :
    (node v e d i).chars ++ r
      = 'x' :: (Rational.digits v ++ (exponentChars e ++ ' ' :: '*' :: ' ' :: '(' ::
          (d.chars ++ ')' :: ' ' :: '+' :: ' ' :: (i.chars ++ r)))) := by
  simp [chars]

theorem stopsAt_exponentChars_append (e : Nat) (r : List Char) :
    StopsAt (Char.isDigit · = true) (exponentChars e ++ ' ' :: r) := by
  rw [exponentChars]
  split
  · exact stopsAt_cons.mpr (by decide)
  · exact stopsAt_cons.mpr (by decide)

/-- A number never begins like a node. -/
theorem chars_const_append_ne (c : Rat) (r s : List Char) :
    (const c).chars ++ r ≠ 'x' :: s := by
  intro h
  have hnum : ∀ a ∈ (Rational.chars c).head?, Rational.IsNumeral a := fun a ha =>
    Rational.isNumeral_of_mem_chars (List.mem_of_mem_head? ha)
  cases hc : Rational.chars c with
  | nil => exact Rational.chars_ne_nil c hc
  | cons a cs =>
      rw [chars, hc] at h
      rw [hc] at hnum
      obtain ⟨rfl, -⟩ := List.cons.inj h
      exact absurd (hnum 'x' rfl) (by decide)

/-- **A term and its end are determined by the text.** If two terms with a continuation each
have the same text, and no continuation goes on with a number, then the terms are equal and so
are the continuations. -/
theorem chars_append_inj {s t : HornerTerm} {r r' : List Char}
    (hr : StopsAt Rational.IsNumeral r) (hr' : StopsAt Rational.IsNumeral r')
    (h : s.chars ++ r = t.chars ++ r') : s = t ∧ r = r' := by
  have hclose : ∀ a : List Char, StopsAt Rational.IsNumeral (')' :: a) := fun a =>
    stopsAt_cons.mpr (by decide)
  induction s generalizing t r r' with
  | const c =>
      cases t with
      | const c' =>
          obtain ⟨hc, hrest⟩ := Rational.chars_append_inj hr hr' h
          exact ⟨congrArg const hc, hrest⟩
      | node v' e' d' i' =>
          rw [chars_node_append] at h
          exact absurd h (chars_const_append_ne c r _)
  | node v e d i ihd ihi =>
      cases t with
      | const c' =>
          rw [chars_node_append] at h
          exact absurd h.symm (chars_const_append_ne c' r' _)
      | node v' e' d' i' =>
          rw [chars_node_append, chars_node_append] at h
          obtain ⟨hv, h⟩ := Rational.digits_append_inj (stopsAt_exponentChars_append e _)
            (stopsAt_exponentChars_append e' _) (List.cons.inj h).2
          obtain ⟨he, h⟩ := exponentChars_append_inj h
          -- the brackets are part of the continuation of the first part
          obtain ⟨hd, h⟩ := ihd (hclose _) (hclose _) (by simpa using h)
          obtain ⟨hi, hrest⟩ := ihi hr hr' (by simpa using h)
          exact ⟨by rw [hv, he, hd, hi], hrest⟩

/-- **The text of a Horner term can be read in one way only.** Two terms have the same text
exactly if they are equal, whatever their nesting, variables, exponents and constants. -/
theorem render_determines_term (s t : HornerTerm) : s.render = t.render ↔ s = t := by
  constructor
  · intro h
    have hchars : s.chars ++ [] = t.chars ++ [] := by
      rw [String.ofList_injective h]
    exact (chars_append_inj (stopsAt_nil _) (stopsAt_nil _) hchars).1
  · rintro rfl
    rfl

example : (node 0 2 (const 1) (node 3 1 (const (-1 / 2)) (const 0))).render
    = "x0^2 * (1) + x3 * (-1/2) + 0" := by decide +kernel

end AlgebraicReals.HornerTerm
