import Mathlib
import AlgebraicReals.Proofs.IsolatedRoot.SignOf
import AlgebraicReals.Proofs.Number.Reachable

set_option autoImplicit false

/-! # The sign of a polynomial at a number

The sign of a polynomial at a real algebraic number, however it is held, is the sign of
its value at the real number. A polynomial that vanishes there is found out without any
bisection, and with Horner evaluation every polynomial gets an answer once the cap is
high enough. -/

namespace AlgebraicReals.Number

section

variable {a : Number} {α : ℝ} (ha : a.Denotes α) {q : Poly}

include ha

theorem signOf_answer {ev : Evaluator} (hev : ev.SoundFor q) {limits : Limits} {s : Sign}
    (hs : (a.signOf ev q limits).answer = .ok s) : s = Sign.ofReal (q.realEval α) := by
  cases a with
  | rational v mark =>
      have hv : (v : ℝ) = α := ha
      cases hs
      rw [Evaluator.ofRat_valueAt hev.valueAt_eq, hv]
  | root r => exact IsolatedRoot.signOf_answer ha hev hs

theorem signOf_of_realEval_eq_zero {ev : Evaluator} (hev : ∀ x, ev.valueAt q x = q.eval x)
    (hq : q.realEval α = 0) (limits : Limits) : a.signOf ev q limits = .now .zero a := by
  cases a with
  | rational v mark =>
      have hv : (v : ℝ) = α := ha
      rw [signOf, Evaluator.ofRat_valueAt hev, hv, hq, Sign.ofReal_zero]
  | root r =>
      rw [signOf, IsolatedRoot.signOf_of_realEval_eq_zero ha hev hq]
      rfl

theorem signOf_horner_ok (hdeg : q.degree < 2 ^ 32) :
    ∃ n, ∀ limits : Limits, n ≤ limits.maxRefinements →
      ∃ s, (a.signOf .horner q limits).answer = .ok s := by
  cases a with
  | rational v mark => exact ⟨0, fun limits _ => ⟨_, rfl⟩⟩
  | root r =>
      obtain ⟨n, hn⟩ := IsolatedRoot.signOf_horner_ok ha hdeg
      exact ⟨n, fun limits hlimits => hn limits.maxRefinements hlimits⟩

end

/-- **The sign of a polynomial at a real algebraic number is decided.** For every number
that can arise, with any history, and every polynomial `q`: an answer got with an
evaluator that is right about `q` is the sign of `q` at the real number, whatever the
limits; if `q` vanishes there, the answer is zero and nothing else happens, whatever the
limits; and with Horner evaluation there is a number of bisections from which on every
cap gives the answer, if the degree of `q` is below `2^32`. -/
theorem signOf_decides_sign {a : Number} {α : ℝ} (ha : a.Reaches α) (q : Poly) :
    (∀ (ev : Evaluator) (limits : Limits) (s : Sign), ev.SoundFor q →
        (a.signOf ev q limits).answer = .ok s → s = Sign.ofReal (q.realEval α))
      ∧ (∀ (ev : Evaluator) (limits : Limits), (∀ x, ev.valueAt q x = q.eval x) →
        q.realEval α = 0 → a.signOf ev q limits = .now .zero a)
      ∧ (q.degree < 2 ^ 32 → ∃ n, ∀ limits : Limits, n ≤ limits.maxRefinements →
        (a.signOf .horner q limits).answer = .ok (Sign.ofReal (q.realEval α))) := by
  have hden := ha.denotes
  refine ⟨fun ev limits s hev hs => ?_, fun ev limits hev hq => ?_, fun hdeg => ?_⟩
  · exact signOf_answer hden hev hs
  · exact signOf_of_realEval_eq_zero hden hev hq limits
  · obtain ⟨n, hn⟩ := signOf_horner_ok hden hdeg
    refine ⟨n, fun limits hlimits => ?_⟩
    obtain ⟨s, hs⟩ := hn limits hlimits
    rw [hs, signOf_answer hden (Evaluator.horner_soundFor hdeg) hs]

/-- At `√2`, the positive root of `x² - 2`, the polynomial `x⁴ - 4` is found to vanish
without bisection, and `x³ - 3` to be negative after enough of it. -/
theorem signOf_decides_sign_sqrt_two :
    ∃ a : Number, a.poly? = some (.ofCoeffs [-2, 0, 1]) ∧ a.Reaches √2
      ∧ (∀ limits, a.signOf .horner (.ofCoeffs [-4, 0, 0, 0, 1]) limits = .now .zero a)
      ∧ ∃ n, ∀ limits : Limits, n ≤ limits.maxRefinements →
        (a.signOf .horner (.ofCoeffs [-3, 0, 0, 1]) limits).answer = .ok .negative := by
  obtain ⟨a, hpoly, ha⟩ := exists_reaches_sqrt_two
  have hsq : √2 * √2 = (2 : ℝ) := Real.mul_self_sqrt zero_le_two
  have hzero : (Poly.ofCoeffs [-4, 0, 0, 0, 1]).realEval √2 = 0 := by
    simp only [Poly.realEval_ofCoeffs_cons, Poly.realEval_ofCoeffs_nil]
    push_cast
    linear_combination (√2 * √2 + 2) * hsq
  have hcube : (Poly.ofCoeffs [-3, 0, 0, 1]).realEval √2 = 2 * √2 - 3 := by
    simp only [Poly.realEval_ofCoeffs_cons, Poly.realEval_ofCoeffs_nil]
    push_cast
    linear_combination √2 * hsq
  have hneg : Sign.ofReal ((Poly.ofCoeffs [-3, 0, 0, 1]).realEval √2) = .negative := by
    rw [hcube]
    refine Sign.ofReal_of_neg ?_
    nlinarith [Real.sqrt_nonneg 2]
  obtain ⟨n, hn⟩ := (signOf_decides_sign ha (.ofCoeffs [-3, 0, 0, 1])).2.2 (by decide)
  refine ⟨a, hpoly, ha, fun limits => ?_, n, fun limits hlimits => ?_⟩
  · exact (signOf_decides_sign ha (.ofCoeffs [-4, 0, 0, 0, 1])).2.1 .horner limits
      (fun _ => rfl) hzero
  · rw [hn limits hlimits, hneg]

end AlgebraicReals.Number
