import Mathlib
import AlgebraicReals.Interval.Arithmetic
import AlgebraicReals.Proofs.Interval.Membership

set_option autoImplicit false

/-! # Interval arithmetic encloses

Sums, powers and products of members of intervals are members of the interval that
the operation answers with, for real members and any kinds of ends.

Sums and powers go one side at a time. A power is monotone on the whole line or on
each half of it, and a strictly monotone function carries an end to an end of the
same kind. Products are spanned by corners on the extended line: a corner has the
half-lines `Corner.up` and `Corner.down` next to it, and a product of members is shown
to lie below one of the four corners; that it lies above one follows by a change of
sign. -/

namespace AlgebraicReals

/-! ## Sums -/

namespace Endpoint

theorem add_mem_above {e f : Endpoint} {x y : ℝ} (hx : x ∈ e.above) (hy : y ∈ f.above) :
    x + y ∈ (e.add f).above := by
  rcases e with _ | ⟨v, a⟩
  · trivial
  rcases f with _ | ⟨w, b⟩
  · trivial
  rw [mem_above_finite] at hx hy
  rw [add, mem_above_finite]
  push_cast
  rcases hx with hx | ⟨rfl, rfl⟩
  · left
    rcases hy with hy | ⟨-, rfl⟩
    · exact add_lt_add hx hy
    · exact add_lt_add_left hx _
  · rcases hy with hy | ⟨rfl, rfl⟩
    · exact .inl (add_lt_add_right hy _)
    · exact .inr ⟨rfl, rfl⟩

theorem add_mem_below {e f : Endpoint} {x y : ℝ} (hx : x ∈ e.below) (hy : y ∈ f.below) :
    x + y ∈ (e.add f).below := by
  rcases e with _ | ⟨v, a⟩
  · trivial
  rcases f with _ | ⟨w, b⟩
  · trivial
  rw [mem_below_finite] at hx hy
  rw [add, mem_below_finite]
  push_cast
  rcases hx with hx | ⟨rfl, rfl⟩
  · left
    rcases hy with hy | ⟨-, rfl⟩
    · exact add_lt_add hx hy
    · exact add_lt_add_left hx _
  · rcases hy with hy | ⟨rfl, rfl⟩
    · exact .inl (add_lt_add_right hy _)
    · exact .inr ⟨rfl, rfl⟩

end Endpoint

theorem Interval.add_mem {I J : Interval} {x y : ℝ} (hx : x ∈ I.toSet) (hy : y ∈ J.toSet) :
    x + y ∈ (I.add J).toSet := by
  rw [add, isEmpty_eq_false hx, isEmpty_eq_false hy]
  exact ⟨Endpoint.add_mem_above hx.1 hy.1, Endpoint.add_mem_below hx.2 hy.2⟩

/-! ## Powers -/

namespace Endpoint

section

variable {e : Endpoint} {n : Nat} {S : Set ℝ} {x : ℝ}
  (he : ∀ v i, e = finite v i → (v : ℝ) ∈ S) (hx : x ∈ S)

include he hx

theorem pow_mem_above_of_mono (hn : StrictMonoOn (fun y : ℝ => y ^ n) S) (h : x ∈ e.above) :
    x ^ n ∈ (e.pow n).above := by
  rcases e with _ | ⟨v, i⟩
  · trivial
  rw [mem_above_finite] at h
  rw [pow, mem_above_finite]
  push_cast
  rcases h with h | ⟨hi, rfl⟩
  · exact .inl (hn (he v i rfl) hx h)
  · exact .inr ⟨hi, rfl⟩

theorem pow_mem_below_of_mono (hn : StrictMonoOn (fun y : ℝ => y ^ n) S) (h : x ∈ e.below) :
    x ^ n ∈ (e.pow n).below := by
  rcases e with _ | ⟨v, i⟩
  · trivial
  rw [mem_below_finite] at h
  rw [pow, mem_below_finite]
  push_cast
  rcases h with h | ⟨hi, rfl⟩
  · exact .inl (hn hx (he v i rfl) h)
  · exact .inr ⟨hi, rfl⟩

theorem pow_mem_below_of_anti (hn : StrictAntiOn (fun y : ℝ => y ^ n) S) (h : x ∈ e.above) :
    x ^ n ∈ (e.pow n).below := by
  rcases e with _ | ⟨v, i⟩
  · trivial
  rw [mem_above_finite] at h
  rw [pow, mem_below_finite]
  push_cast
  rcases h with h | ⟨hi, rfl⟩
  · exact .inl (hn (he v i rfl) hx h)
  · exact .inr ⟨hi, rfl⟩

theorem pow_mem_above_of_anti (hn : StrictAntiOn (fun y : ℝ => y ^ n) S) (h : x ∈ e.below) :
    x ^ n ∈ (e.pow n).above := by
  rcases e with _ | ⟨v, i⟩
  · trivial
  rw [mem_below_finite] at h
  rw [pow, mem_above_finite]
  push_cast
  rcases h with h | ⟨hi, rfl⟩
  · exact .inl (hn hx (he v i rfl) h)
  · exact .inr ⟨hi, rfl⟩

end

end Endpoint

namespace Interval

theorem strictMonoOn_pow_Ici {n : Nat} (hn : n ≠ 0) :
    StrictMonoOn (fun y : ℝ => y ^ n) (Set.Ici 0) := by
  intro y hy z _ hyz
  exact pow_lt_pow_left₀ hyz hy hn

theorem strictAntiOn_pow_Iic {n : Nat} (hn : n ≠ 0) (heven : Even n) :
    StrictAntiOn (fun y : ℝ => y ^ n) (Set.Iic 0) := by
  intro y hy z hz hyz
  show z ^ n < y ^ n
  rw [← heven.neg_pow z, ← heven.neg_pow y]
  exact pow_lt_pow_left₀ (neg_lt_neg hyz) (neg_nonneg.mpr hz) hn

/-- An upper end with a member that is not negative is not negative. -/
theorem mem_Ici_of_mem_below {e : Endpoint} {x : ℝ} (hx : x ∈ e.below) (h0 : 0 ≤ x) (v : Rat)
    (i : Bool) (he : e = .finite v i) : (v : ℝ) ∈ Set.Ici 0 := by
  rw [he] at hx
  exact h0.trans (Endpoint.le_of_mem_below hx)

theorem mem_Iic_of_mem_above {e : Endpoint} {x : ℝ} (hx : x ∈ e.above) (h0 : x ≤ 0) (v : Rat)
    (i : Bool) (he : e = .finite v i) : (v : ℝ) ∈ Set.Iic 0 := by
  rw [he] at hx
  exact (Endpoint.le_of_mem_above hx).trans h0

section

variable {n : Nat} {x : ℝ}

/-- An odd power is monotone everywhere. -/
theorem pow_mem_of_odd {I : Interval} (hodd : Odd n) (hx : x ∈ I.toSet) :
    x ^ n ∈ (⟨I.lower.pow n, I.upper.pow n⟩ : Interval).toSet := by
  have hmono : StrictMonoOn (fun y : ℝ => y ^ n) Set.univ := hodd.strictMono_pow.strictMonoOn _
  exact ⟨Endpoint.pow_mem_above_of_mono (fun _ _ _ => Set.mem_univ _) (Set.mem_univ x) hmono hx.1,
    Endpoint.pow_mem_below_of_mono (fun _ _ _ => Set.mem_univ _) (Set.mem_univ x) hmono hx.2⟩

theorem pow_mem_of_lower_nonneg {l : Rat} {a : Bool} {u : Endpoint} (hn : n ≠ 0)
    (hl0 : (0 : ℝ) ≤ l) (hx : x ∈ (⟨.finite l a, u⟩ : Interval).toSet) :
    x ^ n ∈ (⟨(Endpoint.finite l a).pow n, u.pow n⟩ : Interval).toSet := by
  have hx0 : 0 ≤ x := hl0.trans (Endpoint.le_of_mem_above hx.1)
  have hmono := strictMonoOn_pow_Ici hn
  refine ⟨Endpoint.pow_mem_above_of_mono ?_ hx0 hmono hx.1,
    Endpoint.pow_mem_below_of_mono (mem_Ici_of_mem_below hx.2 hx0) hx0 hmono hx.2⟩
  rintro v i ⟨⟩
  exact hl0

theorem pow_mem_of_upper_nonpos {l : Endpoint} {u : Rat} {b : Bool} (hn : n ≠ 0)
    (heven : Even n) (hu0 : (u : ℝ) ≤ 0) (hx : x ∈ (⟨l, .finite u b⟩ : Interval).toSet) :
    x ^ n ∈ (⟨(Endpoint.finite u b).pow n, l.pow n⟩ : Interval).toSet := by
  have hx0 : x ∈ Set.Iic (0 : ℝ) := (Endpoint.le_of_mem_below hx.2).trans hu0
  have hanti := strictAntiOn_pow_Iic hn heven
  refine ⟨Endpoint.pow_mem_above_of_anti ?_ hx0 hanti hx.2,
    Endpoint.pow_mem_below_of_anti (mem_Iic_of_mem_above hx.1 hx0) hx0 hanti hx.1⟩
  rintro v i ⟨⟩
  exact hu0

/-- Around `0`, the end on the member's own side bounds its even power. -/
theorem even_pow_mem {I : Interval} (hn : n ≠ 0) (heven : Even n) (hx : x ∈ I.toSet) :
    x ^ n ∈ (⟨.finite 0 true, (I.lower.pow n).outerUpper (I.upper.pow n)⟩ : Interval).toSet := by
  refine ⟨?_, ?_⟩
  · show ((0 : Rat) : ℝ) ≤ x ^ n
    rw [Rat.cast_zero]
    exact heven.pow_nonneg x
  · rw [Endpoint.below_outerUpper]
    rcases le_total 0 x with h0 | h0
    · exact .inr (Endpoint.pow_mem_below_of_mono (mem_Ici_of_mem_below hx.2 h0) h0
        (strictMonoOn_pow_Ici hn) hx.2)
    · exact .inl (Endpoint.pow_mem_below_of_anti (mem_Iic_of_mem_above hx.1 h0) h0
        (strictAntiOn_pow_Iic hn heven) hx.1)

end

theorem pow_mem {I : Interval} {x : ℝ} (hx : x ∈ I.toSet) (n : Nat) :
    x ^ n ∈ (I.pow n).toSet := by
  rw [pow, isEmpty_eq_false hx, if_neg Bool.false_ne_true]
  by_cases hn : n = 0
  · subst hn
    rw [if_pos rfl, toSet_point, pow_zero, Rat.cast_one]
    rfl
  rw [if_neg hn]
  by_cases hodd : n % 2 = 1
  · rw [if_pos hodd]
    exact pow_mem_of_odd (Nat.odd_iff.mpr hodd) hx
  rw [if_neg hodd]
  have heven : Even n := Nat.not_odd_iff_even.mp fun h => hodd (Nat.odd_iff.mp h)
  obtain ⟨l, u⟩ := I
  by_cases hpos : (l.isFinite && 0 ≤ l.value) = true
  · rw [if_pos hpos]
    rcases l with _ | ⟨l, a⟩
    · cases hpos
    exact pow_mem_of_lower_nonneg hn (Rat.cast_nonneg.mpr (of_decide_eq_true hpos)) hx
  rw [if_neg hpos]
  by_cases hneg : (u.isFinite && u.value ≤ 0) = true
  · rw [if_pos hneg]
    rcases u with _ | ⟨u, b⟩
    · cases hneg
    exact pow_mem_of_upper_nonpos hn heven (Rat.cast_nonpos.mpr (of_decide_eq_true hneg)) hx
  rw [if_neg hneg]
  exact even_pow_mem hn heven hx

end Interval

/-! ## Corners -/

namespace Corner

/-- The reals from a corner on. -/
def up : Corner → Set ℝ
  | negInfinity => Set.univ
  | point v i => (Endpoint.finite v i).above
  | posInfinity => ∅

/-- The reals up to a corner. -/
def down : Corner → Set ℝ
  | negInfinity => ∅
  | point v i => (Endpoint.finite v i).below
  | posInfinity => Set.univ

theorem up_ofLower (e : Endpoint) : (ofLower e).up = e.above := by
  cases e <;> rfl

theorem down_ofUpper (e : Endpoint) : (ofUpper e).down = e.below := by
  cases e <;> rfl

theorem up_subset_above (p : Corner) : p.up ⊆ p.toEndpoint.above := by
  cases p with
  | negInfinity => exact subset_rfl
  | point v i => exact subset_rfl
  | posInfinity => exact Set.empty_subset _

theorem down_subset_below (p : Corner) : p.down ⊆ p.toEndpoint.below := by
  cases p with
  | negInfinity => exact Set.empty_subset _
  | point v i => exact subset_rfl
  | posInfinity => exact subset_rfl

theorem down_max (p q : Corner) : (p.max q).down = p.down ∪ q.down := by
  rcases p with _ | ⟨v, a⟩ | _
  · rcases q with _ | ⟨w, b⟩ | _ <;> exact (Set.empty_union _).symm
  · rcases q with _ | ⟨w, b⟩ | _
    · exact (Set.union_empty _).symm
    · rw [down, down, ← Endpoint.below_outerUpper]
      rcases lt_trichotomy v w with h | rfl | h
      · simp only [max, Endpoint.outerUpper, Rational.order_of_lt h, down]
      · simp only [max, Endpoint.outerUpper, Rational.order_self, down]
      · simp only [max, Endpoint.outerUpper, Rational.order_of_gt h, down]
    · exact (Set.union_univ _).symm
  · exact (Set.univ_union _).symm

/-! ### Change of sign -/

/-- The corner mirrored at `0`. -/
def neg : Corner → Corner
  | negInfinity => posInfinity
  | point v i => point (-v) i
  | posInfinity => negInfinity

theorem neg_mem_down_neg {p : Corner} {x : ℝ} : -x ∈ p.neg.down ↔ x ∈ p.up := by
  rcases p with _ | ⟨v, i⟩ | _
  · exact Iff.rfl
  · simp only [neg, down, up, Endpoint.mem_below_finite, Endpoint.mem_above_finite]
    push_cast
    rw [neg_lt_neg_iff, neg_inj, eq_comm (a := x)]
  · exact Iff.rfl

theorem neg_mem_up_neg {p : Corner} {x : ℝ} : -x ∈ p.neg.up ↔ x ∈ p.down := by
  rcases p with _ | ⟨v, i⟩ | _
  · exact Iff.rfl
  · simp only [neg, down, up, Endpoint.mem_below_finite, Endpoint.mem_above_finite]
    push_cast
    rw [neg_lt_neg_iff, neg_inj, eq_comm (a := x)]
  · exact Iff.rfl

@[simp] theorem neg_neg (p : Corner) : p.neg.neg = p := by
  rcases p with _ | ⟨v, i⟩ | _
  · rfl
  · rw [neg, neg, Rat.neg_neg]
  · rfl

theorem scaleInfinity_of_pos {v : Rat} (hv : 0 < v) (i positive : Bool) :
    scaleInfinity v i positive = infinity positive := by
  rw [scaleInfinity, if_neg hv.ne', decide_eq_true hv, Bool.true_beq]

theorem scaleInfinity_of_neg {v : Rat} (hv : v < 0) (i positive : Bool) :
    scaleInfinity v i positive = infinity (!positive) := by
  rw [scaleInfinity, if_neg hv.ne, decide_eq_false hv.not_gt, Bool.false_beq]

theorem scaleInfinity_zero (i positive : Bool) : scaleInfinity 0 i positive = point 0 i := rfl

theorem scaleInfinity_neg (v : Rat) (i positive : Bool) :
    scaleInfinity (-v) i positive = (scaleInfinity v i positive).neg := by
  rcases lt_trichotomy v 0 with h | rfl | h
  · rw [scaleInfinity_of_pos (neg_pos.mpr h), scaleInfinity_of_neg h]
    cases positive <;> rfl
  · rw [neg_zero, scaleInfinity_zero]
    rfl
  · rw [scaleInfinity_of_neg (neg_neg_of_pos h), scaleInfinity_of_pos h]
    cases positive <;> rfl

theorem scaleInfinity_not (v : Rat) (i positive : Bool) :
    scaleInfinity v i (!positive) = (scaleInfinity v i positive).neg := by
  rcases lt_trichotomy v 0 with h | rfl | h
  · rw [scaleInfinity_of_neg h, scaleInfinity_of_neg h]
    cases positive <;> rfl
  · rfl
  · rw [scaleInfinity_of_pos h, scaleInfinity_of_pos h]
    cases positive <;> rfl

theorem neg_mul (p q : Corner) : p.neg.mul q = (p.mul q).neg := by
  rcases p with _ | ⟨v, a⟩ | _
  · rcases q with _ | ⟨w, b⟩ | _
    · rfl
    · exact scaleInfinity_not w b false
    · rfl
  · rcases q with _ | ⟨w, b⟩ | _
    · exact scaleInfinity_neg v a false
    · simp only [neg, mul, Rat.neg_mul, neg_eq_zero]
    · exact scaleInfinity_neg v a true
  · rcases q with _ | ⟨w, b⟩ | _
    · rfl
    · exact scaleInfinity_not w b true
    · rfl

theorem mul_comm (p q : Corner) : p.mul q = q.mul p := by
  rcases p with _ | ⟨v, a⟩ | _ <;> rcases q with _ | ⟨w, b⟩ | _ <;> try rfl
  rw [mul, mul, Rat.mul_comm v w, Bool.and_comm a b, Bool.or_right_comm]

/-! ### Products of members

In the lemmas a corner `p` with `x ∈ p.up` is a lower bound of `x`, and one with
`x ∈ p.down` an upper bound. -/

/-- A bound times infinity bounds every multiple of what the bound does: if the bound is
`0`, it bounds `0` only, and then it is attained. -/
theorem mul_mem_down_scaleInfinity {v : Rat} {i : Bool} {x : ℝ} (hx0 : 0 ≤ x)
    (hx : x ∈ (point v i).down) (y : ℝ) : x * y ∈ (scaleInfinity v i true).down := by
  have hv : (0 : ℝ) ≤ v := hx0.trans (Endpoint.le_of_mem_below hx)
  rcases (Rat.cast_nonneg.mp hv).eq_or_lt with rfl | h
  · have hxv : x ≤ 0 := by simpa using Endpoint.le_of_mem_below hx
    have hx' : x = 0 := le_antisymm hxv hx0
    rw [scaleInfinity_zero, hx', zero_mul, ← hx']
    exact hx
  · rw [scaleInfinity_of_pos h]
    trivial

theorem mul_mem_down_points {v w : Rat} {a b : Bool} {x y : ℝ} (hx0 : 0 ≤ x) (hy0 : 0 ≤ y)
    (hx : x ∈ (point v a).down) (hy : y ∈ (point w b).down) :
    x * y ∈ ((point v a).mul (point w b)).down := by
  have hv : (0 : ℝ) ≤ v := hx0.trans (Endpoint.le_of_mem_below hx)
  have hw : (0 : ℝ) ≤ w := hy0.trans (Endpoint.le_of_mem_below hy)
  have hyw : y ≤ w := Endpoint.le_of_mem_below hy
  rw [down, Endpoint.mem_below_finite] at hx hy
  rw [mul, down, Endpoint.mem_below_finite]
  push_cast
  rcases hx with hx | ⟨rfl, rfl⟩
  · rcases hw.eq_or_lt with hw | hw
    · -- `w = 0` leaves `y = 0` only
      have hw' : w = 0 := Rat.cast_eq_zero.mp hw.symm
      obtain ⟨rfl, rfl⟩ : b = true ∧ y = w := hy.resolve_left (by linarith)
      right
      subst hw'
      simp
    · left
      calc x * y ≤ x * w := mul_le_mul_of_nonneg_left hyw hx0
        _ < v * w := mul_lt_mul_of_pos_right hx hw
  · rcases hy with hy | ⟨rfl, rfl⟩
    · rcases hv.eq_or_lt with hv | hv
      · have hv' : v = 0 := Rat.cast_eq_zero.mp hv.symm
        right
        subst hv'
        simp
      · exact .inl (mul_lt_mul_of_pos_left hy hv)
    · exact .inr ⟨rfl, rfl⟩

theorem mul_mem_down_of_nonneg {p q : Corner} {x y : ℝ} (hx0 : 0 ≤ x) (hy0 : 0 ≤ y)
    (hx : x ∈ p.down) (hy : y ∈ q.down) : x * y ∈ (p.mul q).down := by
  rcases p with _ | ⟨v, a⟩ | _
  · exact absurd hx (Set.notMem_empty x)
  · rcases q with _ | ⟨w, b⟩ | _
    · exact absurd hy (Set.notMem_empty y)
    · exact mul_mem_down_points hx0 hy0 hx hy
    · exact mul_mem_down_scaleInfinity hx0 hx y
  · rcases q with _ | ⟨w, b⟩ | _
    · exact absurd hy (Set.notMem_empty y)
    · rw [CommMonoid.mul_comm x y]
      exact mul_mem_down_scaleInfinity hy0 hy x
    · trivial

theorem mul_mem_down_of_nonpos {p q : Corner} {x y : ℝ} (hx0 : x ≤ 0) (hy0 : y ≤ 0)
    (hx : x ∈ p.up) (hy : y ∈ q.up) : x * y ∈ (p.mul q).down := by
  have hprod := mul_mem_down_of_nonneg (neg_nonneg.mpr hx0) (neg_nonneg.mpr hy0)
    (neg_mem_down_neg.mpr hx) (neg_mem_down_neg.mpr hy)
  rw [neg_mul, mul_comm p q.neg, neg_mul, neg_neg, mul_comm q p, neg_mul_neg] at hprod
  exact hprod

/-- Products of numbers from positive lower bounds on. -/
theorem mul_mem_up_of_pos {v w : Rat} {a b : Bool} {x y : ℝ} (hv : 0 < v) (hw : 0 < w)
    (hx : x ∈ (point v a).up) (hy : y ∈ (point w b).up) :
    x * y ∈ ((point v a).mul (point w b)).up := by
  have hv' : (0 : ℝ) < v := Rat.cast_pos.mpr hv
  have hw' : (0 : ℝ) < w := Rat.cast_pos.mpr hw
  have hyw : (w : ℝ) ≤ y := Endpoint.le_of_mem_above hy
  rw [up, Endpoint.mem_above_finite] at hx hy
  rw [mul, up, Endpoint.mem_above_finite]
  push_cast
  rcases hx with hx | ⟨rfl, rfl⟩
  · left
    calc (v : ℝ) * w < x * w := mul_lt_mul_of_pos_right hx hw'
      _ ≤ x * y := mul_le_mul_of_nonneg_left hyw (hv'.trans hx).le
  · rcases hy with hy | ⟨rfl, rfl⟩
    · exact .inl (mul_lt_mul_of_pos_left hy hv')
    · exact .inr ⟨rfl, rfl⟩

/-- A negative number times a positive one stays below the product of the upper bound of
the first with one of the bounds of the second. -/
theorem mul_mem_down_of_neg_of_pos {b c d : Corner} {x y : ℝ} (hx0 : x < 0) (hy0 : 0 < y)
    (hb : x ∈ b.down) (hc : y ∈ c.up) (hd : y ∈ d.down) :
    x * y ∈ (b.mul c).down ∪ (b.mul d).down := by
  have hxy : x * y < 0 := mul_neg_of_neg_of_pos hx0 hy0
  have hneg : ∀ {z : Rat} {i : Bool}, 0 ≤ z → x * y ∈ (point z i).down := by
    intro z i hz
    exact Endpoint.mem_below_finite.mpr (.inl (hxy.trans_le (Rat.cast_nonneg.mpr hz)))
  rcases b with _ | ⟨v, i⟩ | _
  · exact absurd hb (Set.notMem_empty x)
  · rcases lt_or_ge v 0 with hv | hv
    · -- the upper bound is negative: the lower bound of `y` counts
      left
      rcases c with _ | ⟨w, j⟩ | _
      · rw [mul, scaleInfinity_of_neg hv]
        trivial
      · rcases lt_or_ge 0 w with hw | hw
        · have hx' : -x ∈ (point (-v) i).up := neg_mem_up_neg.mpr hb
          have hprod := mul_mem_up_of_pos (neg_pos.mpr hv) hw hx' hc
          rw [show point (-v) i = (point v i).neg from rfl, neg_mul, show -x * y = -(x * y) by ring,
            neg_mem_up_neg] at hprod
          exact hprod
        · exact hneg (mul_nonneg_of_nonpos_of_nonpos hv.le hw)
      · exact absurd hc (Set.notMem_empty y)
    · right
      rcases d with _ | ⟨w, j⟩ | _
      · exact absurd hd (Set.notMem_empty y)
      · have hw : (0 : ℝ) ≤ w := hy0.le.trans (Endpoint.le_of_mem_below hd)
        exact hneg (mul_nonneg hv (Rat.cast_nonneg.mp hw))
      · rcases hv.eq_or_lt with rfl | hv
        · exact hneg le_rfl
        · rw [mul, scaleInfinity_of_pos hv]
          trivial
  · right
    rcases d with _ | ⟨w, j⟩ | _
    · exact absurd hd (Set.notMem_empty y)
    · have hw : (0 : ℝ) < w := hy0.trans_le (Endpoint.le_of_mem_below hd)
      rw [mul, scaleInfinity_of_pos (Rat.cast_pos.mp hw)]
      trivial
    · trivial

section

variable {a b c d : Corner} {x y : ℝ}

/-- A product lies below one of the four corners. Which one depends on the signs. -/
theorem mul_mem_down (ha : x ∈ a.up) (hb : x ∈ b.down) (hc : y ∈ c.up) (hd : y ∈ d.down) :
    x * y ∈ (a.mul c).down ∪ (a.mul d).down ∪ (b.mul c).down ∪ (b.mul d).down := by
  rcases le_or_gt 0 x with hx | hx
  · rcases le_or_gt 0 y with hy | hy
    · exact .inr (mul_mem_down_of_nonneg hx hy hb hd)
    · rcases hx.eq_or_lt with rfl | hx
      · exact .inl (.inl (.inl (mul_mem_down_of_nonpos le_rfl hy.le ha hc)))
      · rw [CommMonoid.mul_comm x y, mul_comm a d, mul_comm b d]
        rcases mul_mem_down_of_neg_of_pos hy hx hd ha hb with h | h
        · exact .inl (.inl (.inr h))
        · exact .inr h
  · rcases le_or_gt y 0 with hy | hy
    · exact .inl (.inl (.inl (mul_mem_down_of_nonpos hx.le hy ha hc)))
    · rcases mul_mem_down_of_neg_of_pos hx hy hb hc hd with h | h
      · exact .inl (.inr h)
      · exact .inr h

theorem mul_mem_up (ha : x ∈ a.up) (hb : x ∈ b.down) (hc : y ∈ c.up) (hd : y ∈ d.down) :
    x * y ∈ (a.mul c).up ∪ (a.mul d).up ∪ (b.mul c).up ∪ (b.mul d).up := by
  have h := mul_mem_down (neg_mem_up_neg.mpr hb) (neg_mem_down_neg.mpr ha) hc hd
  rw [show -x * y = -(x * y) by ring] at h
  simp only [Set.mem_union, neg_mul, neg_mem_down_neg] at h ⊢
  tauto

end

/-! ### The lower of two corners -/

theorem min_eq_neg_max (p q : Corner) : p.min q = (p.neg.max q.neg).neg := by
  rcases p with _ | ⟨v, a⟩ | _
  · rfl
  · rcases q with _ | ⟨w, b⟩ | _
    · rfl
    · rcases lt_trichotomy v w with h | rfl | h
      · simp only [min, max, neg, Rational.order_of_lt h, Rational.order_of_gt (neg_lt_neg h),
          Rat.neg_neg]
      · simp only [min, max, neg, Rational.order_self, Rat.neg_neg]
      · simp only [min, max, neg, Rational.order_of_gt h, Rational.order_of_lt (neg_lt_neg h),
          Rat.neg_neg]
    · exact (neg_neg _).symm
  · rcases q with _ | ⟨w, b⟩ | _
    · rfl
    · exact (neg_neg _).symm
    · rfl

theorem up_min (p q : Corner) : (p.min q).up = p.up ∪ q.up := by
  ext x
  rw [min_eq_neg_max, ← neg_mem_down_neg, neg_neg, down_max, Set.mem_union, Set.mem_union,
    neg_mem_down_neg, neg_mem_down_neg]

/-! ### The ends of an interval -/

theorem mem_up_ofLower {I : Interval} {x : ℝ} (hx : x ∈ I.toSet) : x ∈ (ofLower I.lower).up := by
  rw [up_ofLower]
  exact hx.1

theorem mem_down_ofUpper {I : Interval} {x : ℝ} (hx : x ∈ I.toSet) :
    x ∈ (ofUpper I.upper).down := by
  rw [down_ofUpper]
  exact hx.2

/-- Products of members keep to the lowest and the highest of the four corners. -/
theorem mul_mem_corners {I J : Interval} {x y : ℝ} (hx : x ∈ I.toSet) (hy : y ∈ J.toSet) :
    x * y ∈ (((((ofLower I.lower).mul (ofLower J.lower)).min
        ((ofLower I.lower).mul (ofUpper J.upper))).min
        ((ofUpper I.upper).mul (ofLower J.lower))).min
        ((ofUpper I.upper).mul (ofUpper J.upper))).up
      ∧ x * y ∈ (((((ofLower I.lower).mul (ofLower J.lower)).max
        ((ofLower I.lower).mul (ofUpper J.upper))).max
        ((ofUpper I.upper).mul (ofLower J.lower))).max
        ((ofUpper I.upper).mul (ofUpper J.upper))).down := by
  have ha := mem_up_ofLower hx
  have hb := mem_down_ofUpper hx
  have hc := mem_up_ofLower hy
  have hd := mem_down_ofUpper hy
  constructor
  · simp only [up_min]
    exact mul_mem_up ha hb hc hd
  · simp only [down_max]
    exact mul_mem_down ha hb hc hd

end Corner

theorem Interval.mul_mem {I J : Interval} {x y : ℝ} (hx : x ∈ I.toSet) (hy : y ∈ J.toSet) :
    x * y ∈ (I.mul J).toSet := by
  obtain ⟨hup, hdown⟩ := Corner.mul_mem_corners hx hy
  rw [mul, isEmpty_eq_false hx, isEmpty_eq_false hy]
  exact ⟨Corner.up_subset_above _ hup, Corner.down_subset_below _ hdown⟩

end AlgebraicReals
