import Mathlib
import AlgebraicReals.Proofs.Horner.Isotone

set_option autoImplicit false

/-! # How precise Horner ranges are

Over single points nothing is lost. Sums, products and powers of points are points, so the
range of a term is its value wherever all variables have one value only
(`HornerTerm.enclose_of_evalAt`). For the Horner form of a polynomial this is the value of the
polynomial, as runs of zero coefficients are folded into exponents and not dropped
(`HornerTerm.realEval_factorLowest`). To take the value instead of the range over a point, as
`Poly.encloseHorner` does, is therefore a shortcut and no second definition.

Over other intervals a range holds more than the values, but it is wider than the interval by
a constant factor at most, as long as the interval keeps to a bounded part of the line. This
goes back to `Interval.Near`, which every node of a term keeps
(`HornerTerm.exists_near_enclose`). -/

namespace AlgebraicReals

/-! ## Points -/

namespace Interval

theorem eq_point_of_toSet_eq {I : Interval} {y : Rat} (h : I.toSet = {(y : ℝ)}) :
    I = point y := by
  have hy : (y : ℝ) ∈ I.toSet := by
    rw [h]
    exact Set.mem_singleton _
  exact eq_point_of_subset_singleton (isEmpty_eq_false hy) h.subset

theorem point_add_point (x y : Rat) : (point x).add (point y) = point (x + y) := by
  apply eq_point_of_toSet_eq
  rw [toSet_add, toSet_point, toSet_point, Set.singleton_add_singleton, Rat.cast_add]

theorem point_mul_point (x y : Rat) : (point x).mul (point y) = point (x * y) := by
  apply eq_point_of_toSet_eq
  rw [toSet_mul, toSet_point, toSet_point, Set.singleton_mul_singleton, Rat.cast_mul]

theorem point_pow (x : Rat) (n : Nat) : (point x).pow n = point (x ^ n) := by
  apply eq_point_of_toSet_eq
  rw [toSet_pow, toSet_point, Set.image_singleton, Rat.cast_pow]

end Interval

namespace HornerTerm

/-- Over the points at which a term is evaluated, its range is its value. -/
theorem enclose_of_evalAt {values : Nat → Option Rat} {R : Ranges} {t : HornerTerm} {y : Rat}
    (hR : ∀ v x, values v = some x → R.get v = .point x) (h : t.evalAt values = some y) :
    t.enclose R = .point y := by
  induction t generalizing y with
  | const c =>
      cases h
      rfl
  | node v e d i ihd ihi =>
      simp only [evalAt, Option.bind_eq_bind, Option.bind_eq_some_iff, Option.pure_def,
        Option.some.injEq] at h
      obtain ⟨x, hx, a, ha, b, hb, rfl⟩ := h
      rw [enclose, hR v x hx, ihd ha, ihi hb, Interval.point_pow, Interval.point_mul_point,
        Interval.point_add_point]

/-! ## The Horner form of a polynomial -/

theorem eq_of_mentions {u v : Nat} {t : HornerTerm} (ht : t.OnlyVariable v)
    (hu : t.Mentions u) : u = v := by
  induction t with
  | const c => exact hu.elim
  | node w e d i ihd ihi =>
      obtain ⟨rfl, hd, hi⟩ := ht
      rcases hu with hu | hu | hu
      · exact hu
      · exact ihd hd hu
      · exact ihi hi hu

section

variable {p : Poly} (hp : p.degree < 2 ^ 32) {v : Nat} {x : Rat}

include hp

theorem evalAt_ofPoly {values : Nat → Option Rat} (hx : values v = some x) :
    (ofPoly v p).evalAt values = some (p.eval x) := by
  have hassigned : ∀ u, (ofPoly v p).Mentions u → values u = some x := by
    intro u hu
    rw [eq_of_mentions (onlyVariable_ofPoly v p) hu, hx]
  obtain ⟨y, hy, hvalue⟩ := evalAt_of_assigned hassigned
  rw [realEval_ofPoly v _ hp, Poly.realEval_ratCast] at hvalue
  rw [hy, Rat.cast_injective hvalue]

theorem enclose_ofPoly_point {R : Ranges} (hR : R.get v = .point x) :
    (ofPoly v p).enclose R = .point (p.eval x) := by
  -- only the range of `v` counts, so no other variable needs a value
  have hpoint : ∀ u y, (if u = v then some x else none) = some y → R.get u = .point y := by
    intro u y hy
    obtain ⟨rfl, hxy⟩ := Option.ite_none_right_eq_some.mp hy
    cases hxy
    exact hR
  exact enclose_of_evalAt hpoint (evalAt_ofPoly hp (if_pos rfl))

end

end HornerTerm

namespace Poly

/-- The shortcut over single points does not show. -/
theorem encloseHorner_eq_enclose {p : Poly} (hp : p.degree < 2 ^ 32) (I : Interval) :
    p.encloseHorner I = (HornerTerm.ofPoly 0 p).enclose (Ranges.single 0 I) := by
  rw [encloseHorner]
  cases hpoint : I.point? with
  | none => rfl
  | some x =>
      have hI : (Ranges.single 0 I).get 0 = .point x := by
        rw [Ranges.get_single_self, (Interval.point?_eq_some_iff I x).mp hpoint]
      exact (HornerTerm.enclose_ofPoly_point hp hI).symm

/-- **The Horner form means the polynomial.** In any variable and at any rational number, the
Horner form of a polynomial whose exponents fit into their words has the polynomial's value,
whatever values other variables have. Over a single point, its range is just that value,
whatever the ranges of other variables are; and so evaluating a polynomial over an interval
is evaluating its Horner form, whether or not the interval is a single point. -/
theorem hornerForm_means_polynomial {p : Poly} (hp : p.degree < 2 ^ 32) (v : Nat) (x : Rat) :
    (∀ values : Nat → Option Rat, values v = some x →
        (HornerTerm.ofPoly v p).evalAt values = some (p.eval x))
      ∧ (∀ R : Ranges, R.get v = .point x →
        (HornerTerm.ofPoly v p).enclose R = .point (p.eval x))
      ∧ ∀ I, Evaluator.horner.enclose p I
        = (HornerTerm.ofPoly 0 p).enclose (Ranges.single 0 I) := by
  refine ⟨fun values hx => ?_, fun R hR => ?_, fun I => ?_⟩
  · exact HornerTerm.evalAt_ofPoly hp hx
  · exact HornerTerm.enclose_ofPoly_point hp hR
  · exact encloseHorner_eq_enclose hp I

/-- The polynomial `2·x⁵ - x²`, with zeros below, between and above its terms, in the variable
`x₇` at `-2`. -/
theorem hornerForm_means_polynomial_sparse :
    (HornerTerm.ofPoly 7 (ofCoeffs [0, 0, -1, 0, 0, 2, 0])).evalAt
        (fun v => if v = 7 then some (-2) else none) = some (-68)
      ∧ (HornerTerm.ofPoly 7 (ofCoeffs [0, 0, -1, 0, 0, 2, 0])).enclose
        (Ranges.single 7 (.point (-2))) = .point (-68) := by
  have hdeg : (ofCoeffs [0, 0, -1, 0, 0, 2, 0]).degree < 2 ^ 32 := by decide +kernel
  have heval : (ofCoeffs [0, 0, -1, 0, 0, 2, 0]).eval (-2) = -68 := by decide +kernel
  obtain ⟨hvalue, hrange, -⟩ := hornerForm_means_polynomial hdeg 7 (-2)
  rw [heval] at hvalue hrange
  exact ⟨hvalue _ rfl, hrange _ (Ranges.get_single_self 7 _)⟩

/-! ## Widths -/

/-- **Horner ranges narrow linearly.** For every polynomial and every bound `M` there is a
factor `L` such that over all intervals with members between `-M` and `M`, with ends of any
kind, the range of the polynomial has two finite bounds, and its width is at most `L` times
the width of the interval. -/
theorem horner_ranges_narrow_linearly (p : Poly) (M : Rat) :
    ∃ L : Rat, ∀ I : Interval, I.isEmpty = false →
      (⟨.finite (-M) true, .finite M true⟩ : Interval).includes I = true →
      (Evaluator.horner.enclose p I).isBounded = true
        ∧ ∃ w w', I.width? = some w ∧ (Evaluator.horner.enclose p I).width? = some w'
          ∧ w' ≤ L * w := by
  obtain ⟨L, hrange⟩ := exists_near_encloseHorner p M
  refine ⟨2 * L, fun I hI hM => ?_⟩
  obtain ⟨c, B, hnear⟩ := hrange hI hM
  obtain ⟨l, a, u, b, rfl, -⟩ := (Interval.near_of_includes hI hM).exists_ends
  obtain ⟨l', a', u', b', hends, hwidth⟩ := hnear.exists_ends
  have henclose : Evaluator.horner.enclose p ⟨.finite l a, .finite u b⟩
      = ⟨.finite l' a', .finite u' b'⟩ := hends
  rw [henclose]
  refine ⟨rfl, u - l, u' - l', rfl, rfl, ?_⟩
  calc u' - l' ≤ 2 * (L * (u - l)) := hwidth
    _ = 2 * L * (u - l) := by ring

/-- One factor for `x² - 2` over `(-1, 1)`, where the square folds the interval at `0`, and
over the narrower `[1, 3/2)`. -/
theorem horner_ranges_narrow_linearly_square :
    ∃ L : Rat,
      (∃ w, (Evaluator.horner.enclose (ofCoeffs [-2, 0, 1]) (.between (-1) 1)).width? = some w
        ∧ w ≤ L * 2)
      ∧ ∃ w, (Evaluator.horner.enclose (ofCoeffs [-2, 0, 1])
          ⟨.finite 1 true, .finite (3 / 2) false⟩).width? = some w ∧ w ≤ L * (1 / 2) := by
  obtain ⟨L, hL⟩ := horner_ranges_narrow_linearly (ofCoeffs [-2, 0, 1]) 2
  refine ⟨L, ?_, ?_⟩
  · obtain ⟨-, w, w', hw, hw', hle⟩ := hL (.between (-1) 1) (by decide +kernel) (by decide +kernel)
    have hwidth : (Interval.between (-1) 1).width? = some 2 := by decide +kernel
    obtain rfl := Option.some.inj (hwidth.symm.trans hw)
    exact ⟨w', hw', hle⟩
  · obtain ⟨-, w, w', hw, hw', hle⟩ := hL ⟨.finite 1 true, .finite (3 / 2) false⟩
      (by decide +kernel) (by decide +kernel)
    have hwidth : (⟨.finite 1 true, .finite (3 / 2) false⟩ : Interval).width? = some (1 / 2) := by
      decide +kernel
    obtain rfl := Option.some.inj (hwidth.symm.trans hw)
    exact ⟨w', hw', hle⟩

end Poly

end AlgebraicReals
