import Mathlib
import AlgebraicReals.Proofs.Interval.Enclosure

set_option autoImplicit false

/-! # How wide the results of interval arithmetic are

`Interval.Near I c B w` says that both ends of `I` are numbers within `w` of the
centre `c`, and that all three have magnitude at most `B`. Sums, products and powers of
intervals near some centres are near the sum, product or power of the centres, within a
distance that is linear in `w`. So an expression over an interval has a range that is
wider by a constant factor at most, as long as the interval stays in a bounded part of
the line.

Only the numbers at the ends count here, not which of them are included. -/

namespace AlgebraicReals

/-! ## Endpoints and corners -/

namespace Endpoint

/-- The endpoint is a number of magnitude at most `B` within `w` of `c`. -/
def Near (c B w : Rat) : Endpoint → Prop
  | infinite => False
  | finite v _ => |v| ≤ B ∧ |v - c| ≤ w

theorem Near.add {e f : Endpoint} {c d B C w v : Rat} (he : e.Near c B w) (hf : f.Near d C v) :
    (e.add f).Near (c + d) (B + C) (w + v) := by
  rcases e with _ | ⟨x, a⟩
  · exact he.elim
  rcases f with _ | ⟨y, b⟩
  · exact hf.elim
  refine ⟨(abs_add_le x y).trans (add_le_add he.1 hf.1), ?_⟩
  calc |x + y - (c + d)| = |(x - c) + (y - d)| := by ring_nf
    _ ≤ |x - c| + |y - d| := abs_add_le _ _
    _ ≤ w + v := add_le_add he.2 hf.2

theorem abs_pow_sub_pow_le_of_le {x c B w : Rat} (hx : |x| ≤ B) (hc : |c| ≤ B)
    (hxc : |x - c| ≤ w) (n : Nat) : |x ^ n - c ^ n| ≤ n * B ^ (n - 1) * w := by
  have hw : 0 ≤ w := (abs_nonneg _).trans hxc
  have hmax : max |x| |c| ≤ B := max_le hx hc
  calc |x ^ n - c ^ n| ≤ |x - c| * n * max |x| |c| ^ (n - 1) := abs_pow_sub_pow_le x c n
    _ ≤ w * n * B ^ (n - 1) := by gcongr
    _ = n * B ^ (n - 1) * w := by ring

theorem Near.pow {e : Endpoint} {c B w : Rat} (he : e.Near c B w) (hc : |c| ≤ B) (n : Nat) :
    (e.pow n).Near (c ^ n) (B ^ n) (n * B ^ (n - 1) * w) := by
  rcases e with _ | ⟨x, a⟩
  · exact he.elim
  refine ⟨?_, abs_pow_sub_pow_le_of_le he.1 hc he.2 n⟩
  rw [abs_pow]
  exact pow_le_pow_left₀ (abs_nonneg x) he.1 n

/-- With `0` between two ends near a centre, `0` is as near. -/
theorem near_zero {l u c B w : Rat} {a b : Bool} (hl : (finite l a).Near c B w)
    (hu : (finite u b).Near c B w) (hl0 : l < 0) (hu0 : 0 < u) : (finite 0 true).Near c B w := by
  refine ⟨?_, ?_⟩
  · rw [abs_zero]
    exact (abs_nonneg l).trans hl.1
  · have h₁ := abs_le.mp hl.2
    have h₂ := abs_le.mp hu.2
    rw [abs_le]
    constructor
    · linarith
    · linarith

theorem Near.outerUpper {e f : Endpoint} {c B w : Rat} (he : e.Near c B w)
    (hf : f.Near c B w) : (e.outerUpper f).Near c B w := by
  rcases e with _ | ⟨x, a⟩
  · exact he.elim
  rcases f with _ | ⟨y, b⟩
  · exact hf.elim
  rw [Endpoint.outerUpper]
  split
  · exact he
  · exact hf
  · exact he

end Endpoint

namespace Corner

/-- The corner is a number of magnitude at most `B` within `w` of `c`. -/
def Near (c B w : Rat) (p : Corner) : Prop :=
  p.toEndpoint.Near c B w

theorem Near.min {p q : Corner} {c B w : Rat} (hp : p.Near c B w) (hq : q.Near c B w) :
    (p.min q).Near c B w := by
  rcases p with _ | ⟨x, a⟩ | _
  · exact hp.elim
  · rcases q with _ | ⟨y, b⟩ | _
    · exact hq.elim
    · rw [Corner.min]
      split
      · exact hp
      · exact hq
      · exact hp
    · exact hq.elim
  · exact hp.elim

theorem Near.max {p q : Corner} {c B w : Rat} (hp : p.Near c B w) (hq : q.Near c B w) :
    (p.max q).Near c B w := by
  rcases p with _ | ⟨x, a⟩ | _
  · exact hp.elim
  · rcases q with _ | ⟨y, b⟩ | _
    · exact hq.elim
    · rw [Corner.max]
      split
      · exact hp
      · exact hq
      · exact hp
    · exact hq.elim
  · exact hp.elim

theorem Near.mul {p q : Corner} {c d B C w v : Rat} (hp : p.Near c B w) (hq : q.Near d C v)
    (hd : |d| ≤ C) : (p.mul q).Near (c * d) (B * C) (B * v + C * w) := by
  rcases p with _ | ⟨x, a⟩ | _
  · exact hp.elim
  · rcases q with _ | ⟨y, b⟩ | _
    · exact hq.elim
    · obtain ⟨hx, hxc⟩ : |x| ≤ B ∧ |x - c| ≤ w := hp
      obtain ⟨hy, hyd⟩ : |y| ≤ C ∧ |y - d| ≤ v := hq
      have hB : 0 ≤ B := (abs_nonneg x).trans hx
      have hC : 0 ≤ C := (abs_nonneg d).trans hd
      refine ⟨?_, ?_⟩
      · rw [abs_mul]
        exact mul_le_mul hx hy (abs_nonneg y) hB
      · calc |x * y - c * d| = |x * (y - d) + d * (x - c)| := by ring_nf
          _ ≤ |x * (y - d)| + |d * (x - c)| := abs_add_le _ _
          _ = |x| * |y - d| + |d| * |x - c| := by rw [abs_mul, abs_mul]
          _ ≤ B * v + C * w := by gcongr
    · exact hq.elim
  · exact hp.elim

theorem near_ofLower {e : Endpoint} {c B w : Rat} (he : e.Near c B w) : (ofLower e).Near c B w := by
  cases e with
  | infinite => exact he.elim
  | finite v i => exact he

theorem near_ofUpper {e : Endpoint} {c B w : Rat} (he : e.Near c B w) : (ofUpper e).Near c B w := by
  cases e with
  | infinite => exact he.elim
  | finite v i => exact he

end Corner

/-! ## Intervals -/

namespace Interval

/-- The ends are numbers within `w` of the centre `c`, and all three have magnitude at
most `B`. -/
structure Near (I : Interval) (c B w : Rat) : Prop where
  centre : |c| ≤ B
  lower : I.lower.Near c B w
  upper : I.upper.Near c B w

theorem near_point (v : Rat) : (point v).Near v |v| 0 := by
  have h : |v - v| ≤ 0 := by rw [sub_self, abs_zero]
  exact ⟨le_rfl, ⟨le_rfl, h⟩, ⟨le_rfl, h⟩⟩

/-- Both ends are numbers, at most twice as far apart as they are from the centre. -/
theorem Near.exists_ends {I : Interval} {c B w : Rat} (h : I.Near c B w) :
    ∃ l a u b, I = ⟨.finite l a, .finite u b⟩ ∧ u - l ≤ 2 * w := by
  obtain ⟨l, u⟩ := I
  rcases l with _ | ⟨l, a⟩
  · exact h.lower.elim
  rcases u with _ | ⟨u, b⟩
  · exact h.upper.elim
  have hl := abs_le.mp h.lower.2
  have hu := abs_le.mp h.upper.2
  refine ⟨l, a, u, b, rfl, ?_⟩
  linarith

/-- An interval with members between `-M` and `M` is near its lower end, within its width. -/
theorem near_of_includes {I : Interval} {M : Rat} (hI : I.isEmpty = false)
    (h : (⟨.finite (-M) true, .finite M true⟩ : Interval).includes I = true) :
    I.Near I.lower.value M (I.upper.value - I.lower.value) := by
  obtain ⟨x, hx⟩ := nonempty_toSet hI
  rw [includes_iff, subset_iff hI, ← Endpoint.coversAbove_iff, ← Endpoint.coversBelow_iff] at h
  obtain ⟨l, u⟩ := I
  rcases l with _ | ⟨l, a⟩
  · exact absurd h.1 Bool.false_ne_true
  rcases u with _ | ⟨u, b⟩
  · exact absurd h.2 Bool.false_ne_true
  have hlu : l ≤ u :=
    Rat.cast_le.mp ((Endpoint.le_of_mem_above hx.1).trans (Endpoint.le_of_mem_below hx.2))
  have hl : -M ≤ l := by simpa [Endpoint.coversAbove, ← le_iff_lt_or_eq] using h.1
  have hu : u ≤ M := by simpa [Endpoint.coversBelow, eq_comm (a := M), ← le_iff_lt_or_eq] using h.2
  have hlM : |l| ≤ M := abs_le.mpr ⟨hl, hlu.trans hu⟩
  have huM : |u| ≤ M := abs_le.mpr ⟨hl.trans hlu, hu⟩
  refine ⟨hlM, ⟨hlM, ?_⟩, ⟨huM, ?_⟩⟩
  · show |l - l| ≤ u - l
    rw [sub_self, abs_zero]
    exact sub_nonneg.mpr hlu
  · exact (abs_of_nonneg (sub_nonneg.mpr hlu)).le

/-- Members of an interval are as close as its ends. -/
theorem Near.abs_sub_le {I : Interval} {c B w : Rat} (h : I.Near c B w) {x y : ℝ}
    (hx : x ∈ I.toSet) (hy : y ∈ I.toSet) : |x - y| ≤ 2 * w := by
  obtain ⟨l, a, u, b, rfl, hwidth⟩ := h.exists_ends
  have hul : ((u - l : Rat) : ℝ) ≤ ((2 * w : Rat) : ℝ) := Rat.cast_le.mpr hwidth
  push_cast at hul
  have hlx := Endpoint.le_of_mem_above hx.1
  have hux := Endpoint.le_of_mem_below hx.2
  have hly := Endpoint.le_of_mem_above hy.1
  have huy := Endpoint.le_of_mem_below hy.2
  rw [abs_le]
  constructor
  · linarith
  · linarith

/-- An interval that is narrower than a member is far from `0` does not reach `0`. -/
theorem Near.sign_ne_zero {I : Interval} {c B w : Rat} (h : I.Near c B w) {y : ℝ}
    (hy : y ∈ I.toSet) (hw : ((2 * w : Rat) : ℝ) < |y|) : I.sign ≠ .zero := by
  intro hzero
  have hdist := h.abs_sub_le hy (zero_mem_of_sign hzero hy)
  rw [sub_zero] at hdist
  push_cast at hw
  exact absurd hdist (not_le.mpr hw)

section

variable {I J : Interval} {c d B C w v : Rat}

theorem Near.add (hI : I.isEmpty = false) (hJ : J.isEmpty = false) (h : I.Near c B w)
    (h' : J.Near d C v) : (I.add J).Near (c + d) (B + C) (w + v) := by
  rw [Interval.add, hI, hJ]
  exact ⟨(abs_add_le c d).trans (add_le_add h.centre h'.centre), h.lower.add h'.lower,
    h.upper.add h'.upper⟩

theorem Near.mul (hI : I.isEmpty = false) (hJ : J.isEmpty = false) (h : I.Near c B w)
    (h' : J.Near d C v) : (I.mul J).Near (c * d) (B * C) (B * v + C * w) := by
  have ha := Corner.near_ofLower h.lower
  have hb := Corner.near_ofUpper h.upper
  have hc := Corner.near_ofLower h'.lower
  have hd := Corner.near_ofUpper h'.upper
  have hac := ha.mul hc h'.centre
  have had := ha.mul hd h'.centre
  have hbc := hb.mul hc h'.centre
  have hbd := hb.mul hd h'.centre
  have hcentre : |c * d| ≤ B * C := by
    rw [abs_mul]
    exact mul_le_mul h.centre h'.centre (abs_nonneg d) ((abs_nonneg c).trans h.centre)
  rw [Interval.mul, hI, hJ]
  exact ⟨hcentre, ((hac.min had).min hbc).min hbd, ((hac.max had).max hbc).max hbd⟩

theorem Near.pow (hI : I.isEmpty = false) (h : I.Near c B w) (n : Nat) :
    (I.pow n).Near (c ^ n) (B ^ n) (n * B ^ (n - 1) * w) := by
  have hlower := h.lower.pow h.centre n
  have hupper := h.upper.pow h.centre n
  have hcentre : |c ^ n| ≤ B ^ n := by
    rw [abs_pow]
    exact pow_le_pow_left₀ (abs_nonneg c) h.centre n
  rw [Interval.pow, hI, if_neg Bool.false_ne_true]
  by_cases hn : n = 0
  · subst hn
    simpa using near_point 1
  rw [if_neg hn]
  split
  · exact ⟨hcentre, hlower, hupper⟩
  split
  · exact ⟨hcentre, hlower, hupper⟩
  rename_i hpos
  split
  · exact ⟨hcentre, hupper, hlower⟩
  rename_i hneg
  refine ⟨hcentre, ?_, hlower.outerUpper hupper⟩
  obtain ⟨l, u⟩ := I
  obtain ⟨hc, hl, hu⟩ := h
  rcases l with _ | ⟨l, a⟩
  · exact hl.elim
  rcases u with _ | ⟨u, b⟩
  · exact hu.elim
  have hl0 : l < 0 := not_le.mp fun h0 => hpos (decide_eq_true h0)
  have hu0 : 0 < u := not_le.mp fun h0 => hneg (decide_eq_true h0)
  -- the lower end of the result is the power of `0`, which lies between the ends
  have hzero := (Endpoint.near_zero hl hu hl0 hu0).pow hc n
  rwa [Endpoint.pow, zero_pow hn] at hzero

end

end Interval

end AlgebraicReals
