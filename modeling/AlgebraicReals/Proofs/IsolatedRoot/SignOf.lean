import Mathlib
import AlgebraicReals.Proofs.Horner.Enclosure
import AlgebraicReals.Proofs.IsolatedRoot.Bisection

set_option autoImplicit false

/-! # The sign of a polynomial at a root

The sign of a polynomial `q` at a root `α` is read off the value of `q` if `α` is known,
and otherwise off a range of `q` over an interval around `α`. `Evaluator.SoundFor` says
what an evaluator has to do for this to be right. Ranges cannot tell that `q` vanishes at
`α`; a common root of the polynomials does, and exactly then. If `q` does not vanish,
Horner ranges over narrow intervals are narrower than the distance of `q α` from `0`, so
that bisection comes to an end. -/

namespace AlgebraicReals

namespace Evaluator

/-- The evaluator gives exact values of `q` at rationals, and its ranges of `q` over an
interval hold the values at all real members. -/
structure SoundFor (ev : Evaluator) (q : Poly) : Prop where
  valueAt_eq : ∀ x, ev.valueAt q x = q.eval x
  mem_enclose : ∀ (I : Interval) (x : ℝ), x ∈ I.toSet → q.realEval x ∈ (ev.enclose q I).toSet

theorem horner_soundFor {q : Poly} (hq : q.degree < 2 ^ 32) : horner.SoundFor q where
  valueAt_eq _ := rfl
  mem_enclose _ _ hx := Poly.realEval_mem_encloseHorner hq hx

/-- The sign of an exact value. -/
theorem ofRat_valueAt {ev : Evaluator} {q : Poly} (hev : ∀ x, ev.valueAt q x = q.eval x)
    (v : Rat) : Sign.ofRat (ev.valueAt q v) = Sign.ofReal (q.realEval v) := by
  rw [hev, Poly.realEval_ratCast, Sign.ofReal_ratCast]

end Evaluator

namespace IsolatedRoot

/-- The interval around a root lies in a bounded part of the line. -/
theorem exists_interval_subset (r : IsolatedRoot) :
    ∃ M : Rat, r.interval.toSet ⊆ (⟨.finite (-M) true, .finite M true⟩ : Interval).toSet := by
  cases hloc : r.location with
  | exact v =>
      refine ⟨|v|, ?_⟩
      rw [interval_of_exact hloc, Interval.toSet_closed, Set.singleton_subset_iff]
      push_cast
      exact ⟨neg_abs_le _, le_abs_self _⟩
  | between l u =>
      refine ⟨max |l| |u|, ?_⟩
      rw [interval_of_between hloc, Interval.toSet_closed]
      rintro x ⟨hl, hu⟩
      push_cast
      exact abs_le.mp (abs_le_max_abs_abs hl.le hu.le)

section

variable {r : IsolatedRoot} {α : ℝ} (h : r.Isolates α) {ev : Evaluator} {q : Poly}

include h

theorem haveCommonRoot_iff_realEval_eq_zero {l u : Rat} (hloc : r.location = .between l u) :
    r.poly.haveCommonRoot q (.between l u) = true ↔ q.realEval α = 0 := by
  rw [Poly.haveCommonRoot_iff h.nonzero]
  constructor
  · rintro ⟨x, hp, hq, hx⟩
    rw [Interval.toSet_between] at hx
    rwa [← (h.traps hloc).only x hp hx.1 hx.2]
  · intro hq
    exact ⟨α, h.root, hq, h.mem_between hloc⟩

/-! ## Answers are right -/

theorem signOf?_eq (hev : ev.SoundFor q) {s : Sign} {t : IsolatedRoot}
    (hs : signOf? ev q r = some (s, t)) : s = Sign.ofReal (q.realEval α) := by
  cases hloc : r.location with
  | exact v =>
      simp only [signOf?, hloc, Option.some.injEq, Prod.mk.injEq] at hs
      rw [← hs.1, Evaluator.ofRat_valueAt hev.valueAt_eq, h.value_eq hloc]
  | between l u =>
      simp only [signOf?, hloc, Option.ite_none_left_eq_some, Option.some.injEq,
        Prod.mk.injEq] at hs
      obtain ⟨hzero, rfl, -⟩ := hs
      exact (Interval.ofReal_eq_sign hzero (hev.mem_enclose _ α (h.mem_between hloc))).symm

theorem signOf_answer (hev : ev.SoundFor q) {cap : Nat} {s : Sign}
    (hs : (r.signOf ev q cap).answer = .ok s) : s = Sign.ofReal (q.realEval α) := by
  cases hloc : r.location with
  | exact v =>
      simp only [signOf, hloc, Outcome.now, Except.ok.injEq] at hs
      rw [← hs, Evaluator.ofRat_valueAt hev.valueAt_eq, h.value_eq hloc]
  | between l u =>
      simp only [signOf, hloc] at hs
      split at hs
      · rename_i hconst
        cases hs
        rw [Poly.realEval_of_isConstant hconst, Sign.ofReal_ratCast]
      · split at hs
        · rename_i hcommon
          cases hs
          rw [(haveCommonRoot_iff_realEval_eq_zero h hloc).mp hcommon, Sign.ofReal_zero]
        · exact search_answer_of_invariant (P := fun t : IsolatedRoot => t.Isolates α)
            (fun _ ht => refine_isolates ht) (fun _ _ _ ht hst => signOf?_eq ht hev hst) h hs

/-- A polynomial that vanishes at the root is recognised at once, by its value or by a
common root. -/
theorem signOf_of_realEval_eq_zero (hev : ∀ x, ev.valueAt q x = q.eval x)
    (hq : q.realEval α = 0) (cap : Nat) : r.signOf ev q cap = .now .zero r := by
  cases hloc : r.location with
  | exact v =>
      simp only [signOf, hloc]
      rw [Evaluator.ofRat_valueAt hev, h.value_eq hloc, hq, Sign.ofReal_zero]
  | between l u =>
      simp only [signOf, hloc]
      by_cases hconst : q.isConstant = true
      · rw [if_pos hconst, ← Sign.ofReal_ratCast, ← Poly.realEval_of_isConstant hconst α, hq,
          Sign.ofReal_zero]
      · rw [if_neg hconst, if_pos ((haveCommonRoot_iff_realEval_eq_zero h hloc).mpr hq)]

/-! ## Horner ranges end the search -/

omit h in
/-- Horner ranges over narrow intervals around the root decide, as long as the intervals
lie within the present one. -/
theorem exists_signOf?_isSome_of_width_le (hdeg : q.degree < 2 ^ 32) (hq : q.realEval α ≠ 0) :
    ∃ δ : Rat, 0 < δ ∧ ∀ s, Tracks r α s → s.width ≤ δ → (signOf? .horner q s).isSome := by
  obtain ⟨M, hM⟩ := exists_interval_subset r
  obtain ⟨L, hrange⟩ := Poly.exists_near_encloseHorner q M
  have hL : (0 : ℝ) < 2 * |(L : ℝ)| + 1 := by positivity
  obtain ⟨δ, hδ, hδq⟩ := exists_rat_btwn (div_pos (abs_pos.mpr hq) hL)
  refine ⟨δ, Rat.cast_pos.mp hδ, ?_⟩
  intro s ⟨hs, hfollows⟩ hwidth
  cases hloc : s.location with
  | exact v =>
      rw [signOf?, hloc]
      rfl
  | between l u =>
      have hα := hs.mem_between hloc
      have hα' : q.realEval α ∈ (q.encloseHorner (.between l u)).toSet :=
        Poly.realEval_mem_encloseHorner hdeg hα
      have hincludes : (⟨.finite (-M) true, .finite M true⟩ : Interval).includes (.between l u)
          = true := by
        rw [Interval.includes_iff, Interval.toSet_between, ← interval_of_between hloc]
        exact hfollows.interval.trans hM
      obtain ⟨d, B, hd⟩ := hrange (Interval.isEmpty_eq_false hα) hincludes
      have hends : (Interval.between l u).upper.value - (Interval.between l u).lower.value
          = s.width := (width_of_between hloc).symm
      rw [hends] at hd
      -- the range is narrower than `q α` is far from `0`
      have hlt : ((2 * (L * s.width) : Rat) : ℝ) < |q.realEval α| := by
        have hw : (0 : ℝ) ≤ s.width := Rat.cast_nonneg.mpr (width_nonneg hs)
        have hwδ : (s.width : ℝ) ≤ δ := Rat.cast_le.mpr hwidth
        push_cast
        calc 2 * ((L : ℝ) * s.width) ≤ 2 * (|(L : ℝ)| * s.width) := by gcongr; exact le_abs_self _
          _ ≤ 2 * (|(L : ℝ)| * δ) := by gcongr
          _ ≤ (2 * |(L : ℝ)| + 1) * δ := by linarith
          _ < |q.realEval α| := by rwa [lt_div_iff₀' hL] at hδq
      have hsign : (Evaluator.horner.enclose q (.between l u)).sign ≠ .zero :=
        hd.sign_ne_zero hα' hlt
      simp only [signOf?, hloc]
      rw [if_neg hsign]
      rfl

theorem signOf_horner_ok (hdeg : q.degree < 2 ^ 32) :
    ∃ n, ∀ cap, n ≤ cap → ∃ s, (r.signOf .horner q cap).answer = .ok s := by
  by_cases hq : q.realEval α = 0
  · refine ⟨0, fun cap _ => ⟨.zero, ?_⟩⟩
    rw [signOf_of_realEval_eq_zero h (fun _ => rfl) hq]
    rfl
  · obtain ⟨δ, hδ, hnarrow⟩ := exists_signOf?_isSome_of_width_le (r := r) hdeg hq
    obtain ⟨n, hn⟩ := exists_width_iterate_refine_le h hδ
    refine ⟨n, fun cap hcap => ?_⟩
    cases hloc : r.location with
    | exact v => exact ⟨_, by simp only [signOf, hloc, Outcome.now]; rfl⟩
    | between l u =>
        simp only [signOf, hloc]
        split
        · exact ⟨_, rfl⟩
        · split
          · exact ⟨_, rfl⟩
          · exact search_ok_of_isSome hcap (hnarrow _ (iterate_refine_tracks h n) hn)

end

end IsolatedRoot

end AlgebraicReals
