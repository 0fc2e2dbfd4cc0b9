import Mathlib
import AlgebraicReals.Proofs.Horner.Precision
import AlgebraicReals.Proofs.Interval.Laws

set_option autoImplicit false

/-! # Horner ranges are inside expanded ranges

The obvious way to enclose a polynomial over an interval is to enclose each term `cₖ·xᵏ` and
to add up; `Poly.encloseTerms` does so. The Horner form is never worse than this on
intervals that do not have `0` inside, which are the ones that isolate roots.

A node `x^e·d + a` of the Horner form stands below a power `x^k` that has been factored out
already. Two laws of interval arithmetic bring it into the expanded form: the power is
multiplied into the sum, where the range can only grow (`Interval.mul_add_subset`), and then
it is joined with the power of the node, which changes nothing (`Interval.pow_mul_pow`).
The second law is the one that fails around `0`. -/

namespace AlgebraicReals

/-! ## The expanded form -/

/-- The ranges of the terms `c·x^k` and of higher powers, one for each coefficient, added to
the sum so far. -/
def Interval.addTerms (I sum : Interval) (k : Nat) : List Rat → Interval
  | [] => sum
  | c :: cs => I.addTerms (sum.add ((point c).mul (I.pow k))) (k + 1) cs

/-- The range of a polynomial over an interval by its expanded form: the sum of the ranges
of its terms. -/
def Poly.encloseTerms (p : Poly) (I : Interval) : Interval :=
  I.addTerms (.point 0) 0 p.coeffs

namespace Interval

variable {I : Interval} (hI : I.isEmpty = false)

include hI

/-- Zero terms add `0`. -/
theorem subset_add_zero_mul_pow (J : Interval) (k : Nat) :
    J.toSet ⊆ (J.add ((point 0).mul (I.pow k))).toSet := by
  obtain ⟨x, hx⟩ := nonempty_toSet hI
  have hzero : (0 : ℝ) ∈ ((point 0).mul (I.pow k)).toSet := by
    have hmem := mul_mem (I := point 0) (x := 0) (by simp) (pow_mem hx k)
    rwa [zero_mul] at hmem
  intro y hy
  have hmem := add_mem hy hzero
  rwa [add_zero] at hmem

theorem subset_zero_add_pow_zero_mul (J : Interval) :
    J.toSet ⊆ ((point 0).add ((I.pow 0).mul J)).toSet := by
  obtain ⟨x, hx⟩ := nonempty_toSet hI
  intro y hy
  have hmem := add_mem (I := point 0) (x := 0) (by simp) (mul_mem (pow_mem hx 0) hy)
  rwa [pow_zero, one_mul, zero_add] at hmem

theorem subset_addTerms_of_forall_eq_zero {cs : List Rat} (hcs : ∀ c ∈ cs, c = 0)
    (J : Interval) (k : Nat) : J.toSet ⊆ (I.addTerms J k cs).toSet := by
  induction cs generalizing J k with
  | nil => exact subset_rfl
  | cons c cs ih =>
      obtain ⟨rfl, hzeros⟩ := List.forall_mem_cons.mp hcs
      exact (subset_add_zero_mul_pow hI J k).trans (ih hzeros _ (k + 1))

end Interval

/-! ## From the Horner form to the expanded form -/

namespace HornerTerm

variable {I : Interval} {R : Ranges} {v : Nat}

/-- A power that stands before a node is multiplied into it. -/
theorem pow_mul_enclose_node_subset (h0 : (0 : ℝ) ∉ interior I.toSet) (hR : R.get v = I)
    (k e : Nat) (t : HornerTerm) (a : Rat) :
    ((I.pow k).mul ((node v e t (const a)).enclose R)).toSet
      ⊆ (((Interval.point a).mul (I.pow k)).add ((I.pow (k + e)).mul (t.enclose R))).toSet := by
  rw [enclose, enclose, hR]
  calc ((I.pow k).mul (((I.pow e).mul (t.enclose R)).add (.point a))).toSet
      ⊆ (((I.pow k).mul ((I.pow e).mul (t.enclose R))).add ((I.pow k).mul (.point a))).toSet :=
        Interval.mul_add_subset _ _ _
    _ = (((Interval.point a).mul (I.pow k)).add ((I.pow (k + e)).mul (t.enclose R))).toSet := by
        rw [← Interval.mul_assoc, Interval.pow_mul_pow h0, Interval.add_comm,
          Interval.mul_comm (I.pow k)]

/-- The Horner form of the coefficients from `x^k` on, multiplied out: its range is inside
the sum of the ranges of the terms. The sum so far and the power already factored out change
along the list, and so the statement is about all of them. -/
theorem add_pow_mul_enclose_subset (hI : I.isEmpty = false) (h0 : (0 : ℝ) ∉ interior I.toSet)
    (hR : R.get v = I) {n : Nat} {t : HornerTerm} {cs : List Rat} (hcs : cs.length ≤ 2 ^ 32)
    (h : factorLowest v cs = some (n, t)) (J : Interval) (k : Nat) :
    (J.add ((I.pow (k + n)).mul (t.enclose R))).toSet ⊆ (I.addTerms J k cs).toSet := by
  induction cs generalizing n t J k with
  | nil => cases h
  | cons a cs ih =>
      rw [List.length_cons] at hcs
      cases hrest : factorLowest v cs with
      | none =>
          simp only [factorLowest, hrest] at h
          split at h
          · cases h
          · cases h
            -- `a` is the leading coefficient, and only zeros follow
            rw [Nat.add_zero, enclose, Interval.mul_comm]
            exact Interval.subset_addTerms_of_forall_eq_zero hI
              (eq_zero_of_factorLowest_eq_none hrest) _ (k + 1)
      | some r =>
          obtain ⟨m, s⟩ := r
          have hm : m + 1 < cs.length + 1 := Nat.succ_lt_succ (lt_length_of_factorLowest hrest)
          have ih := ih (by omega) hrest (J.add ((Interval.point a).mul (I.pow k))) (k + 1)
          rw [Nat.add_right_comm, Nat.add_assoc] at ih
          simp only [factorLowest, hrest] at h
          split at h
          · rename_i ha
            subst ha
            cases h
            -- the exponent has grown by one, and the zero term adds nothing
            have hsum := Interval.subset_add_zero_mul_pow hI J k
            exact (Interval.add_subset hsum subset_rfl).trans ih
          · cases h
            have hnode := pow_mul_enclose_node_subset h0 hR k (m + 1) s a
            rw [Interval.add_assoc] at ih
            rw [Nat.add_zero, exponentWord_of_lt_length hm hcs]
            exact (Interval.add_subset subset_rfl hnode).trans ih

theorem enclose_ofPoly_subset (hI : I.isEmpty = false) (h0 : (0 : ℝ) ∉ interior I.toSet)
    (hR : R.get v = I) {p : Poly} (hp : p.degree < 2 ^ 32) :
    ((ofPoly v p).enclose R).toSet ⊆ (p.encloseTerms I).toSet := by
  have hlength : p.coeffs.length ≤ 2 ^ 32 := by
    rw [Poly.degree] at hp
    omega
  rw [Poly.encloseTerms]
  -- at the start nothing is in the sum and nothing is factored out
  have hsum : ∀ {n t}, factorLowest v p.coeffs = some (n, t) →
      ((Interval.point 0).add ((I.pow n).mul (t.enclose R))).toSet
        ⊆ (I.addTerms (.point 0) 0 p.coeffs).toSet := by
    intro n t h
    have hsubset := add_pow_mul_enclose_subset hI h0 hR hlength h (.point 0) 0
    rwa [Nat.zero_add] at hsubset
  unfold ofPoly
  split
  · rename_i h
    exact Interval.subset_addTerms_of_forall_eq_zero hI (eq_zero_of_factorLowest_eq_none h) _ 0
  · rename_i t h
    exact (Interval.subset_zero_add_pow_zero_mul hI _).trans (hsum h)
  · rename_i n t h
    have hword := exponentWord_of_lt_length (lt_length_of_factorLowest h) hlength
    rw [hword, enclose, enclose, hR, Interval.add_comm]
    exact hsum h

end HornerTerm

namespace Poly

/-- **Horner ranges are at least as tight as expanded ones** on one side of `0`. Over every
interval that has members but does not have `0` inside, with ends of any kind, the range of
a polynomial by its Horner form is a subset of the sum of the ranges of its terms. -/
theorem horner_ranges_inside_expanded {p : Poly} (hp : p.degree < 2 ^ 32) {I : Interval}
    (hI : I.isEmpty = false) (h0 : (0 : ℝ) ∉ interior I.toSet) :
    (Evaluator.horner.enclose p I).toSet ⊆ (p.encloseTerms I).toSet := by
  -- also over a single point, where the value is taken instead
  have hform : Evaluator.horner.enclose p I
      = (HornerTerm.ofPoly 0 p).enclose (Ranges.single 0 I) := encloseHorner_eq_enclose hp I
  rw [hform]
  exact HornerTerm.enclose_ofPoly_subset hI h0 (Ranges.get_single_self 0 I) hp

/-- The polynomial `x² - x` over `[1, ∞)`: the Horner form `x·(x - 1)` shows that it has no
negative value there, whereas the expanded form shows nothing. -/
theorem horner_ranges_inside_expanded_half_line :
    (0 : ℝ) ∉ interior (⟨.finite 1 true, .infinite⟩ : Interval).toSet
      ∧ Evaluator.horner.enclose (ofCoeffs [0, -1, 1]) ⟨.finite 1 true, .infinite⟩
        = ⟨.finite 0 true, .infinite⟩
      ∧ (ofCoeffs [0, -1, 1]).encloseTerms ⟨.finite 1 true, .infinite⟩ = .line
      ∧ (Evaluator.horner.enclose (ofCoeffs [0, -1, 1]) ⟨.finite 1 true, .infinite⟩).toSet
        ⊆ ((ofCoeffs [0, -1, 1]).encloseTerms ⟨.finite 1 true, .infinite⟩).toSet := by
  have h0 : (0 : ℝ) ∉ interior (⟨.finite 1 true, .infinite⟩ : Interval).toSet := by
    intro h
    have hle := Endpoint.le_of_mem_above (interior_subset h).1
    norm_num at hle
  refine ⟨h0, by decide +kernel, by decide +kernel, ?_⟩
  exact horner_ranges_inside_expanded (by decide +kernel) (by decide +kernel) h0

/-- Around `0` it can be the other way round: the square of `[-1, 1]` is `[0, 1]`, but the
product with itself is not. -/
example : Evaluator.horner.enclose (ofCoeffs [0, 1, 1]) ⟨.finite (-1) true, .finite 1 true⟩
      = ⟨.finite (-2) true, .finite 2 true⟩
    ∧ (ofCoeffs [0, 1, 1]).encloseTerms ⟨.finite (-1) true, .finite 1 true⟩
      = ⟨.finite (-1) true, .finite 2 true⟩ := by
  decide +kernel

end Poly

end AlgebraicReals
