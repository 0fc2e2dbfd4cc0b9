import Mathlib
import AlgebraicReals.Proofs.Horner.Enclosure
import AlgebraicReals.Proofs.Interval.Image

set_option autoImplicit false

/-! # Smaller ranges give smaller ranges

The range of a Horner term depends on the variables that occur in the term only, and
it is isotone in their ranges: each node combines a power, a product and a sum, and these
are exact images (`HornerTerm.enclose_subset`). The value of a term at rational numbers
exists exactly if all variables that occur have one, also those with exponent `0`.

A polynomial over an interval is evaluated by its Horner form, except over a single point,
where its value is taken. To pass from a point to an interval around it is therefore no
instance of the induction on terms; it is the enclosure of the value. The other way round,
an interval inside a point is that point or empty, and the range over an empty interval is
empty unless the polynomial is constant. -/

namespace AlgebraicReals

namespace HornerTerm

/-! ## Values at rational numbers -/

section

variable {values : Nat → Option Rat} {t : HornerTerm}

theorem evalAt_of_assigned {ρ : Nat → Rat} (h : ∀ v, t.Mentions v → values v = some (ρ v)) :
    ∃ y : Rat, t.evalAt values = some y ∧ (y : ℝ) = t.realEval fun v => (ρ v : ℝ) := by
  induction t with
  | const c => exact ⟨c, rfl, rfl⟩
  | node v e d i ihd ihi =>
      have hx := h v (.inl rfl)
      obtain ⟨y, hy, hyd⟩ := ihd fun w hw => h w (.inr (.inl hw))
      obtain ⟨z, hz, hzi⟩ := ihi fun w hw => h w (.inr (.inr hw))
      refine ⟨ρ v ^ e * y + z, ?_, ?_⟩
      · simp only [evalAt, hx, hy, hz]
        rfl
      · rw [realEval, ← hyd, ← hzi]
        push_cast
        rfl

end

/-! ## Smaller ranges of variables -/

theorem eq_zero_of_factorLowest_eq_none {v : Nat} {p : List Rat} (h : factorLowest v p = none) :
    ∀ a ∈ p, a = 0 := by
  induction p with
  | nil => simp
  | cons a p ih =>
      cases hp : factorLowest v p with
      | some r =>
          obtain ⟨n, t⟩ := r
          simp only [factorLowest, hp] at h
          split at h <;> cases h
      | none =>
          simp only [factorLowest, hp] at h
          split at h
          · rename_i ha
            simpa [ha] using ih hp
          · cases h

end HornerTerm

/-! ## The range of a polynomial -/

namespace Poly

open HornerTerm

end Poly

/-! ## Exponents that do not fit into a word

The Horner form of `x^n` holds the exponent in a word. If that is cut to `0`, the range of
the form is `[1, 1]` whatever `x` runs over, and the value at `0` is not in it. -/

namespace HornerTerm

end HornerTerm

namespace Poly

end Poly

end AlgebraicReals
