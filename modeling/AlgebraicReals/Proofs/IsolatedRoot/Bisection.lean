import Mathlib
import AlgebraicReals.Proofs.IsolatedRoot.Steps

set_option autoImplicit false

/-! # Bisection narrows

The width of the interval around a root, `0` once the value is known. Each
bisection at least halves it, so that `n` bisections divide it by `2^n`, and every
number of the interval is nearer to the root than the width. A query that is
decided in narrow enough intervals is therefore decided after finitely many
steps. -/

namespace AlgebraicReals.IsolatedRoot

/-- The width of the interval around a root. -/
def width (r : IsolatedRoot) : Rat :=
  r.interval.width?.getD 0

theorem width_of_exact {r : IsolatedRoot} {v : Rat} (hloc : r.location = .exact v) :
    r.width = 0 := by
  rw [width, interval, hloc]
  show v - v = 0
  exact sub_self v

theorem width_of_between {r : IsolatedRoot} {l u : Rat} (hloc : r.location = .between l u) :
    r.width = u - l := by
  rw [width, interval, hloc]
  rfl

theorem width_nonneg {r : IsolatedRoot} {α : ℝ} (h : r.Isolates α) : 0 ≤ r.width := by
  cases hloc : r.location with
  | exact v => rw [width_of_exact hloc]
  | between l u =>
      rw [width_of_between hloc]
      exact sub_nonneg.mpr (h.traps hloc).lt.le

/-- A bisection leaves at most half of the interval. -/
theorem width_refine_le {r : IsolatedRoot} {α : ℝ} (h : r.Isolates α) :
    r.refine.width ≤ r.width / 2 := by
  have hnonneg := width_nonneg h
  cases hloc : r.location with
  | exact v =>
      rw [refine_of_exact hloc, width_of_exact hloc, zero_div]
  | between l u =>
      rw [width_of_between hloc] at hnonneg ⊢
      rcases refine_cases h hloc with ⟨hr, -⟩ | ⟨hr, -⟩ | ⟨hr, -⟩
      · rw [width_of_exact hr]
        linarith
      · rw [width_of_between hr, Rational.midpoint]
        linarith
      · rw [width_of_between hr, Rational.midpoint]
        linarith

theorem iterate_refine_tracks {r : IsolatedRoot} {α : ℝ} (h : r.Isolates α) (n : Nat) :
    Tracks r α (IsolatedRoot.refine^[n] r) :=
  Function.Iterate.rec (Tracks r α) h.tracks (fun _ hs => hs.refine) n

theorem width_iterate_refine_le {r : IsolatedRoot} {α : ℝ} (h : r.Isolates α) (n : Nat) :
    (IsolatedRoot.refine^[n] r).width ≤ r.width / 2 ^ n := by
  induction n with
  | zero => simp
  | succ n ih =>
      rw [Function.iterate_succ_apply', pow_succ, ← div_div]
      calc (IsolatedRoot.refine^[n] r).refine.width
          ≤ (IsolatedRoot.refine^[n] r).width / 2 :=
            width_refine_le (iterate_refine_tracks h n).1
        _ ≤ r.width / 2 ^ n / 2 := div_le_div_of_nonneg_right ih zero_le_two

theorem cast_width_iterate_refine_le {r : IsolatedRoot} {α : ℝ} (h : r.Isolates α) (n : Nat) :
    ((IsolatedRoot.refine^[n] r).width : ℝ) ≤ (r.width : ℝ) / 2 ^ n := by
  calc ((IsolatedRoot.refine^[n] r).width : ℝ)
      ≤ ((r.width / 2 ^ n : Rat) : ℝ) := Rat.cast_le.mpr (width_iterate_refine_le h n)
    _ = (r.width : ℝ) / 2 ^ n := by push_cast; rfl

/-- Bisection makes the interval as narrow as wanted. -/
theorem exists_width_iterate_refine_le {r : IsolatedRoot} {α : ℝ} (h : r.Isolates α) {δ : Rat}
    (hδ : 0 < δ) : ∃ n, (IsolatedRoot.refine^[n] r).width ≤ δ := by
  have hw : 0 < r.width + 1 := add_pos_of_nonneg_of_pos (width_nonneg h) one_pos
  -- a width of `0` needs no bisection, hence the `+ 1`
  obtain ⟨n, hn⟩ := exists_pow_lt_of_lt_one (div_pos hδ hw) (one_half_lt_one (α := Rat))
  refine ⟨n, ?_⟩
  calc (IsolatedRoot.refine^[n] r).width ≤ r.width / 2 ^ n := width_iterate_refine_le h n
    _ = (1 / 2) ^ n * r.width := by rw [one_div, inv_pow, div_eq_inv_mul]
    _ ≤ (1 / 2) ^ n * (r.width + 1) := by gcongr; linarith
    _ ≤ δ / (r.width + 1) * (r.width + 1) := by gcongr
    _ = δ := div_mul_cancel₀ δ hw.ne'

/-- Inside the interval everything is nearer to the root than the width. -/
theorem abs_sub_lt_width {r : IsolatedRoot} {α : ℝ} (h : r.Isolates α) {l u : Rat}
    (hloc : r.location = .between l u) {x : ℝ} (hx : x ∈ (Interval.between l u).toSet) :
    |x - α| < r.width := by
  have htraps := h.traps hloc
  rw [Interval.toSet_between] at hx
  rw [width_of_between hloc, abs_lt, Rat.cast_sub]
  constructor
  · linarith [hx.1, htraps.upper]
  · linarith [hx.2, htraps.lower]

end AlgebraicReals.IsolatedRoot
