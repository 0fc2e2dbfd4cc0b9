import Mathlib
import AlgebraicReals.Proofs.Interval.Product

set_option autoImplicit false

/-! # Sums and powers of intervals are exact

The intervals that `Interval.add` and `Interval.pow` answer with are the set of sums and
the set of powers of members, no more and no less (`Interval.toSet_add`,
`Interval.toSet_pow`). That they hold all sums and powers is shown in
`AlgebraicReals.Proofs.Interval.Enclosure`. What is left is that both ends are reached,
and this goes one end at a time: a finite end is carried along by continuity, and an
infinite one because sums and powers of large numbers are large. Absolute values need no
such argument, since they only fold the line at `0` (`Interval.toSet_abs`). The main
statement, `Interval.images_exact`, is about all operations other than products and
quotients.

Operations that are exact in this sense are isotone: the image of a smaller set is
smaller. This goes for products, too, which are exact by `Interval.toSet_mul`. -/

namespace AlgebraicReals

open scoped Pointwise

/-! ## Ends that are reached -/

namespace Corner

@[simp] theorem toEndpoint_ofLower (e : Endpoint) : (ofLower e).toEndpoint = e := by
  cases e <;> rfl

@[simp] theorem toEndpoint_ofUpper (e : Endpoint) : (ofUpper e).toEndpoint = e := by
  cases e <;> rfl

theorem ofUpper_outerUpper (e f : Endpoint) :
    ofUpper (e.outerUpper f) = (ofUpper e).max (ofUpper f) := by
  rcases e with _ | ⟨v, a⟩
  · rfl
  rcases f with _ | ⟨w, b⟩
  · rfl
  rcases lt_trichotomy v w with h | rfl | h
  · simp only [Endpoint.outerUpper, ofUpper, max, Rational.order_of_lt h]
  · simp only [Endpoint.outerUpper, ofUpper, max, Rational.order_self]
  · simp only [Endpoint.outerUpper, ofUpper, max, Rational.order_of_gt h]

end Corner

/-- `Interval.toSet_of_reachedBy` for an interval that is given by its ends. -/
theorem Interval.toSet_of_ends_reachedBy {e f : Endpoint} {S : Set ℝ} (hne : S.Nonempty)
    (hS : S.OrdConnected) (hmem : ∀ x ∈ S, x ∈ (⟨e, f⟩ : Interval).toSet)
    (he : (Corner.ofLower e).ReachedBy S) (hf : (Corner.ofUpper f).ReachedBy S) :
    (⟨e, f⟩ : Interval).toSet = S := by
  have hup : S ⊆ (Corner.ofLower e).up := fun x hx => Corner.mem_up_ofLower (hmem x hx)
  have hdown : S ⊆ (Corner.ofUpper f).down := fun x hx => Corner.mem_down_ofUpper (hmem x hx)
  have hspan := toSet_of_reachedBy hne hS hup hdown he hf
  rwa [Corner.toEndpoint_ofLower, Corner.toEndpoint_ofUpper] at hspan

/-! ## Sums -/

theorem Endpoint.add_neg (e f : Endpoint) : e.neg.add f.neg = (e.add f).neg := by
  rcases e with _ | ⟨v, a⟩
  · rfl
  rcases f with _ | ⟨w, b⟩
  · rfl
  simp only [add, neg, neg_add]

namespace Corner

section

variable {e f : Endpoint} {S T : Set ℝ}

theorem not_bddBelow_add {t : ℝ} (hS : ¬BddBelow S) (ht : t ∈ T) : ¬BddBelow (S + T) := by
  rw [not_bddBelow_iff]
  intro b
  obtain ⟨s, hs, hsb⟩ := not_bddBelow_iff.mp hS (b - t)
  exact ⟨s + t, Set.add_mem_add hs ht, lt_sub_iff_add_lt.mp hsb⟩

theorem ReachedBy.add_lower (he : (ofLower e).ReachedBy S) (hf : (ofLower f).ReachedBy T)
    (hS : S.Nonempty) (hT : T.Nonempty) : (ofLower (e.add f)).ReachedBy (S + T) := by
  rcases e with _ | ⟨v, a⟩
  · obtain ⟨t, ht⟩ := hT
    exact not_bddBelow_add he ht
  rcases f with _ | ⟨w, b⟩
  · obtain ⟨s, hs⟩ := hS
    rw [add_comm S T]
    exact not_bddBelow_add hf hs
  refine ⟨?_, ?_⟩
  · rw [Rat.cast_add]
    exact map_mem_closure₂ continuous_add he.1 hf.1 fun s hs t ht => Set.add_mem_add hs ht
  · intro hab
    obtain ⟨ha, hb⟩ := Bool.and_eq_true_iff.mp hab
    rw [Rat.cast_add]
    exact Set.add_mem_add (he.2 ha) (hf.2 hb)

theorem ReachedBy.add_upper (he : (ofUpper e).ReachedBy S) (hf : (ofUpper f).ReachedBy T)
    (hS : S.Nonempty) (hT : T.Nonempty) : (ofUpper (e.add f)).ReachedBy (S + T) := by
  rw [ofUpper_eq_neg, ← reachedBy_neg_iff, neg_neg] at he hf ⊢
  rw [← Endpoint.add_neg, neg_add]
  exact he.add_lower hf hS.neg hT.neg

end

end Corner

namespace Interval

theorem ordConnected_add {S T : Set ℝ} (hS : S.OrdConnected) (hT : T.OrdConnected) :
    (S + T).OrdConnected := by
  have himage := (hS.isPreconnected.prod hT.isPreconnected).image
    (fun p : ℝ × ℝ => p.1 + p.2) continuous_add.continuousOn
  rw [Set.add_image_prod] at himage
  exact himage.ordConnected

theorem toSet_add (I J : Interval) : (I.add J).toSet = I.toSet + J.toSet := by
  by_cases hI : I.isEmpty = true
  · rw [add, hI, (isEmpty_iff I).mp hI, Set.empty_add]
    exact toSet_empty
  by_cases hJ : J.isEmpty = true
  · rw [add, hJ, Bool.or_true, (isEmpty_iff J).mp hJ, Set.add_empty]
    exact toSet_empty
  rw [Bool.not_eq_true] at hI hJ
  have hIne := nonempty_toSet hI
  have hJne := nonempty_toSet hJ
  have hsum : I.add J = ⟨I.lower.add J.lower, I.upper.add J.upper⟩ := by
    rw [add, hI, hJ]
    rfl
  rw [hsum]
  refine toSet_of_ends_reachedBy (hIne.add hJne)
    (ordConnected_add I.ordConnected_toSet J.ordConnected_toSet) ?_
    ((Corner.reachedBy_ofLower hI).add_lower (Corner.reachedBy_ofLower hJ) hIne hJne)
    ((Corner.reachedBy_ofUpper hI).add_upper (Corner.reachedBy_ofUpper hJ) hIne hJne)
  rintro _ ⟨x, hx, y, hy, rfl⟩
  have hmem := add_mem hx hy
  rwa [hsum] at hmem

end Interval

/-! ## Powers -/

namespace Corner

section

variable {e : Endpoint} {n : Nat} {S : Set ℝ}

theorem ReachedBy.pow_point {v : Rat} {a : Bool} (h : (point v a).ReachedBy S) (n : Nat) :
    (point (v ^ n) a).ReachedBy ((fun x : ℝ => x ^ n) '' S) := by
  refine ⟨?_, ?_⟩
  · have hclosure := map_mem_closure (continuous_pow n) h.1 (Set.mapsTo_image _ _)
    rwa [← Rat.cast_pow] at hclosure
  · intro ha
    rw [Rat.cast_pow]
    exact Set.mem_image_of_mem _ (h.2 ha)

theorem not_bddAbove_pow (hn : n ≠ 0) (hS : ¬BddAbove S) :
    ¬BddAbove ((fun x : ℝ => x ^ n) '' S) := by
  rw [not_bddAbove_iff]
  intro b
  -- from `1` on, a power is at least the number itself
  obtain ⟨s, hs, hbs⟩ := not_bddAbove_iff.mp hS (Max.max b 1)
  have hone : 1 ≤ s := (le_max_right b 1).trans hbs.le
  refine ⟨s ^ n, Set.mem_image_of_mem _ hs, ?_⟩
  calc b ≤ Max.max b 1 := le_max_left b 1
    _ < s := hbs
    _ ≤ s ^ n := le_self_pow₀ hone hn

theorem image_pow_neg_of_even (heven : Even n) :
    (fun x : ℝ => x ^ n) '' (-S) = (fun x : ℝ => x ^ n) '' S := by
  rw [← Set.image_neg_eq_neg, Set.image_image]
  simp only [heven.neg_pow]

theorem image_pow_neg_of_odd (hodd : Odd n) :
    (fun x : ℝ => x ^ n) '' (-S) = -((fun x : ℝ => x ^ n) '' S) := by
  rw [← Set.image_neg_eq_neg, ← Set.image_neg_eq_neg, Set.image_image, Set.image_image]
  simp only [hodd.neg_pow]

theorem ReachedBy.pow_upper (hn : n ≠ 0) (h : (ofUpper e).ReachedBy S) :
    (ofUpper (e.pow n)).ReachedBy ((fun x : ℝ => x ^ n) '' S) := by
  cases e with
  | infinite => exact not_bddAbove_pow hn h
  | finite v a => exact h.pow_point n

theorem ReachedBy.pow_lower_of_odd (hodd : Odd n) (h : (ofLower e).ReachedBy S) :
    (ofLower (e.pow n)).ReachedBy ((fun x : ℝ => x ^ n) '' S) := by
  cases e with
  | infinite =>
      have hneg := not_bddAbove_pow hodd.pos.ne' (bddAbove_neg.not.mpr h)
      rwa [image_pow_neg_of_odd hodd, bddAbove_neg] at hneg
  | finite v a => exact h.pow_point n

/-- An even power turns a lower end into an upper one. -/
theorem ReachedBy.pow_lower_of_even (hn : n ≠ 0) (heven : Even n) (h : (ofLower e).ReachedBy S) :
    (ofUpper (e.pow n)).ReachedBy ((fun x : ℝ => x ^ n) '' S) := by
  cases e with
  | infinite =>
      have hneg := not_bddAbove_pow hn (bddAbove_neg.not.mpr h)
      rwa [image_pow_neg_of_even heven] at hneg
  | finite v a => exact h.pow_point n

end

end Corner

namespace Interval

theorem ordConnected_pow {S : Set ℝ} (hS : S.OrdConnected) (n : Nat) :
    ((fun x : ℝ => x ^ n) '' S).OrdConnected :=
  (hS.isPreconnected.image _ (continuous_pow n).continuousOn).ordConnected

/-- An interval that starts below `0` and ends above `0` holds `0`. -/
theorem zero_mem_of_ends {l u : Endpoint} (hl : ¬(l.isFinite && 0 ≤ l.value) = true)
    (hu : ¬(u.isFinite && u.value ≤ 0) = true) : (0 : ℝ) ∈ (⟨l, u⟩ : Interval).toSet := by
  refine ⟨?_, ?_⟩
  · rcases l with _ | ⟨v, a⟩
    · trivial
    · have hv : v < 0 := not_le.mp fun h => hl (decide_eq_true h)
      exact Endpoint.mem_above_finite.mpr (.inl (Rat.cast_lt_zero.mpr hv))
  · rcases u with _ | ⟨v, a⟩
    · trivial
    · have hv : 0 < v := not_le.mp fun h => hu (decide_eq_true h)
      exact Endpoint.mem_below_finite.mpr (.inl (Rat.cast_pos.mpr hv))

/-! The four shapes that a power can have: monotone, right of `0`, left of `0` and around
`0`. -/

section

variable {n : Nat}

theorem toSet_image_pow {I : Interval} {e f : Endpoint} (hI : I.isEmpty = false)
    (hmem : ∀ x ∈ I.toSet, x ^ n ∈ (⟨e, f⟩ : Interval).toSet)
    (he : (Corner.ofLower e).ReachedBy ((fun x : ℝ => x ^ n) '' I.toSet))
    (hf : (Corner.ofUpper f).ReachedBy ((fun x : ℝ => x ^ n) '' I.toSet)) :
    (⟨e, f⟩ : Interval).toSet = (fun x : ℝ => x ^ n) '' I.toSet := by
  refine toSet_of_ends_reachedBy ((nonempty_toSet hI).image _)
    (ordConnected_pow I.ordConnected_toSet n) ?_ he hf
  rintro _ ⟨x, hx, rfl⟩
  exact hmem x hx

theorem toSet_pow_of_odd {I : Interval} (hI : I.isEmpty = false) (hodd : Odd n) :
    (⟨I.lower.pow n, I.upper.pow n⟩ : Interval).toSet = (fun x : ℝ => x ^ n) '' I.toSet :=
  toSet_image_pow hI (fun _ hx => pow_mem_of_odd hodd hx)
    ((Corner.reachedBy_ofLower hI).pow_lower_of_odd hodd)
    ((Corner.reachedBy_ofUpper hI).pow_upper hodd.pos.ne')

theorem toSet_pow_of_lower_nonneg {l : Rat} {a : Bool} {u : Endpoint} (hn : n ≠ 0) (hl : 0 ≤ l)
    (hI : (⟨.finite l a, u⟩ : Interval).isEmpty = false) :
    (⟨(Endpoint.finite l a).pow n, u.pow n⟩ : Interval).toSet
      = (fun x : ℝ => x ^ n) '' (⟨.finite l a, u⟩ : Interval).toSet :=
  toSet_image_pow hI (fun _ hx => pow_mem_of_lower_nonneg hn (Rat.cast_nonneg.mpr hl) hx)
    ((Corner.reachedBy_ofLower hI).pow_point n) ((Corner.reachedBy_ofUpper hI).pow_upper hn)

theorem toSet_pow_of_upper_nonpos {l : Endpoint} {u : Rat} {b : Bool} (hn : n ≠ 0)
    (heven : Even n) (hu : u ≤ 0) (hI : (⟨l, .finite u b⟩ : Interval).isEmpty = false) :
    (⟨(Endpoint.finite u b).pow n, l.pow n⟩ : Interval).toSet
      = (fun x : ℝ => x ^ n) '' (⟨l, .finite u b⟩ : Interval).toSet :=
  toSet_image_pow hI (fun _ hx => pow_mem_of_upper_nonpos hn heven (Rat.cast_nonpos.mpr hu) hx)
    ((Corner.reachedBy_ofUpper hI).pow_point n)
    ((Corner.reachedBy_ofLower hI).pow_lower_of_even hn heven)

theorem toSet_pow_of_zero_mem {I : Interval} (hn : n ≠ 0) (heven : Even n)
    (hzero : (0 : ℝ) ∈ I.toSet) :
    (⟨.finite 0 true, (I.lower.pow n).outerUpper (I.upper.pow n)⟩ : Interval).toSet
      = (fun x : ℝ => x ^ n) '' I.toSet := by
  have hI := isEmpty_eq_false hzero
  have himage : ((0 : Rat) : ℝ) ∈ (fun x : ℝ => x ^ n) '' I.toSet := by
    refine ⟨0, hzero, ?_⟩
    rw [Rat.cast_zero]
    exact zero_pow hn
  refine toSet_image_pow hI (fun _ hx => even_pow_mem hn heven hx)
    ⟨subset_closure himage, fun _ => himage⟩ ?_
  -- whichever of the two ends is farther from `0` is reached
  rw [Corner.ofUpper_outerUpper]
  exact ((Corner.reachedBy_ofLower hI).pow_lower_of_even hn heven).max
    ((Corner.reachedBy_ofUpper hI).pow_upper hn)

end

theorem toSet_pow (I : Interval) (n : Nat) : (I.pow n).toSet = (fun x : ℝ => x ^ n) '' I.toSet := by
  by_cases hempty : I.isEmpty = true
  · rw [pow, if_pos hempty, (isEmpty_iff I).mp hempty, Set.image_empty, toSet_empty]
  have hI : I.isEmpty = false := Bool.eq_false_iff.mpr hempty
  rw [pow, if_neg hempty]
  by_cases hn : n = 0
  · subst hn
    simp only [if_true, pow_zero, toSet_point, Rat.cast_one]
    exact ((nonempty_toSet hI).image_const 1).symm
  rw [if_neg hn]
  by_cases hodd : n % 2 = 1
  · rw [if_pos hodd]
    exact toSet_pow_of_odd hI (Nat.odd_iff.mpr hodd)
  rw [if_neg hodd]
  have heven : Even n := Nat.not_odd_iff_even.mp fun h => hodd (Nat.odd_iff.mp h)
  obtain ⟨l, u⟩ := I
  by_cases hpos : (l.isFinite && 0 ≤ l.value) = true
  · rw [if_pos hpos]
    rcases l with _ | ⟨l, a⟩
    · cases hpos
    exact toSet_pow_of_lower_nonneg hn (of_decide_eq_true hpos) hI
  rw [if_neg hpos]
  by_cases hneg : (u.isFinite && u.value ≤ 0) = true
  · rw [if_pos hneg]
    rcases u with _ | ⟨u, b⟩
    · cases hneg
    exact toSet_pow_of_upper_nonpos hn heven (of_decide_eq_true hneg) hI
  rw [if_neg hneg]
  exact toSet_pow_of_zero_mem hn heven (zero_mem_of_ends hpos hneg)

end Interval

/-! ## Absolute values

Only an interval around `0` is folded. Its lower end lies left of `0` and is turned over,
its upper end lies right of `0` and stays. -/

namespace Endpoint

theorem magnitude_of_zero_mem_above {e : Endpoint} (h : (0 : ℝ) ∈ e.above) :
    e.magnitude = e.neg := by
  rcases e with _ | ⟨v, i⟩
  · rfl
  have hv : v ≤ 0 := Rat.cast_nonpos.mp (le_of_mem_above h)
  rw [magnitude, neg, Rational.magnitude]
  split
  · rfl
  · rename_i hneg
    obtain rfl : v = 0 := le_antisymm hv (not_lt.mp hneg)
    rfl

theorem magnitude_of_zero_mem_below {e : Endpoint} (h : (0 : ℝ) ∈ e.below) :
    e.magnitude = e := by
  rcases e with _ | ⟨v, i⟩
  · rfl
  have hv : 0 ≤ v := Rat.cast_nonneg.mp (le_of_mem_below h)
  rw [magnitude, Rational.magnitude, if_neg hv.not_gt]

end Endpoint

namespace Interval

theorem mem_image_abs {S : Set ℝ} {y : ℝ} :
    y ∈ (fun x : ℝ => |x|) '' S ↔ 0 ≤ y ∧ (y ∈ S ∨ -y ∈ S) := by
  constructor
  · rintro ⟨x, hx, rfl⟩
    show 0 ≤ |x| ∧ (|x| ∈ S ∨ -|x| ∈ S)
    refine ⟨abs_nonneg x, ?_⟩
    rcases abs_cases x with ⟨habs, -⟩ | ⟨habs, -⟩
    · left
      rwa [habs]
    · right
      rwa [habs, neg_neg]
  · rintro ⟨hy, hmem | hmem⟩
    · exact ⟨y, hmem, abs_of_nonneg hy⟩
    · refine ⟨-y, hmem, ?_⟩
      show |-y| = y
      rw [abs_neg, abs_of_nonneg hy]

theorem toSet_abs_of_zero_mem {I : Interval} (h0 : (0 : ℝ) ∈ I.toSet) :
    (⟨.finite 0 true, I.lower.magnitude.outerUpper I.upper.magnitude⟩ : Interval).toSet
      = (fun x : ℝ => |x|) '' I.toSet := by
  ext y
  have hzero : y ∈ (Endpoint.finite 0 true).above ↔ 0 ≤ y := by
    rw [Endpoint.above, Rat.cast_zero, Set.mem_Ici]
  rw [mem_toSet, Endpoint.below_outerUpper, Endpoint.magnitude_of_zero_mem_above h0.1,
    Endpoint.magnitude_of_zero_mem_below h0.2, mem_image_abs, hzero]
  refine and_congr_right fun hy => ?_
  -- right of `0` only the upper end counts, and left of `0` only the lower one
  have hright : y ∈ I.toSet ↔ y ∈ I.upper.below :=
    and_iff_right (Endpoint.mem_above_of_le h0.1 hy)
  have hleft : -y ∈ I.toSet ↔ -y ∈ I.lower.above :=
    and_iff_left (Endpoint.mem_below_of_le h0.2 (neg_nonpos.mpr hy))
  rw [Set.mem_union, Endpoint.mem_below_neg, hright, hleft, or_comm]

theorem toSet_abs (I : Interval) : I.abs.toSet = (fun x : ℝ => |x|) '' I.toSet := by
  by_cases hempty : I.isEmpty = true
  · rw [abs, if_pos hempty, (isEmpty_iff I).mp hempty, Set.image_empty, toSet_empty]
  rw [abs, if_neg hempty]
  cases hsign : I.sign with
  | positive =>
      have hne : I.sign ≠ .zero := fun h => Sign.noConfusion (hsign.symm.trans h)
      have habs : ∀ x ∈ I.toSet, |x| = x := fun x hx =>
        abs_of_pos (Sign.pos_of_ofReal ((ofReal_eq_sign hne hx).trans hsign))
      rw [Set.image_congr habs, Set.image_id']
  | negative =>
      have hne : I.sign ≠ .zero := fun h => Sign.noConfusion (hsign.symm.trans h)
      have habs : ∀ x ∈ I.toSet, |x| = -x := fun x hx =>
        abs_of_neg (Sign.neg_of_ofReal ((ofReal_eq_sign hne hx).trans hsign))
      rw [Set.image_congr habs, Set.image_neg_eq_neg, toSet_neg]
  | zero =>
      obtain ⟨x, hx⟩ := nonempty_toSet (Bool.eq_false_iff.mpr hempty)
      exact toSet_abs_of_zero_mem (zero_mem_of_sign hsign hx)

/-! ## All images -/

theorem toSet_sub (I J : Interval) : (I.sub J).toSet = I.toSet - J.toSet := by
  rw [sub, toSet_add, toSet_neg, sub_eq_add_neg]

theorem add_of_isEmpty {I J : Interval} (h : I.isEmpty = true ∨ J.isEmpty = true) :
    I.add J = empty := by
  rw [add]
  exact if_pos (Bool.or_eq_true_iff.mpr h)

/-- **Powers, absolute values, sums, differences and opposites are exact.** Each of these
operations answers the interval of all results on members, and nothing else: the members of
the answer are the results, and where there are any, its finite ends are their bounds,
included exactly if they are results themselves, and its infinite ends say that there is no
bound. Without members in an operand there are none in the answer, which then is `(0, 0)`
unless it is an opposite; and the power with exponent `0` of an interval with members is
`[1, 1]`. -/
theorem images_exact (I J : Interval) :
    (∀ n, (I.pow n).IsExactly {y | ∃ x ∈ I.toSet, x ^ n = y})
      ∧ I.abs.IsExactly {y | ∃ x ∈ I.toSet, |x| = y}
      ∧ (I.add J).IsExactly {z | ∃ x ∈ I.toSet, ∃ y ∈ J.toSet, x + y = z}
      ∧ (I.sub J).IsExactly {z | ∃ x ∈ I.toSet, ∃ y ∈ J.toSet, x - y = z}
      ∧ I.neg.IsExactly {y | ∃ x ∈ I.toSet, -x = y}
      ∧ (I.isEmpty = true ∨ J.isEmpty = true → I.add J = empty ∧ I.sub J = empty)
      ∧ (I.isEmpty = true → (∀ n, I.pow n = empty) ∧ I.abs = empty ∧ I.neg.isEmpty = true)
      ∧ (I.isEmpty = false → I.pow 0 = point 1) := by
  refine ⟨fun n => isExactly_of_toSet_eq (I.toSet_pow n), isExactly_of_toSet_eq I.toSet_abs,
    isExactly_of_toSet_eq (I.toSet_add J), isExactly_of_toSet_eq (I.toSet_sub J), ?_, ?_, ?_, ?_⟩
  · apply isExactly_of_toSet_eq
    rw [toSet_neg, ← Set.image_neg_eq_neg]
    rfl
  · intro h
    refine ⟨add_of_isEmpty h, add_of_isEmpty ?_⟩
    rwa [isEmpty_neg]
  · intro h
    refine ⟨fun n => if_pos h, if_pos h, ?_⟩
    rwa [isEmpty_neg]
  · intro h
    rw [pow, h]
    rfl

/-- Both ends of `[-2, 2)` have the square `4`, and one of them includes it. -/
example : (⟨.finite (-2) true, .finite 2 false⟩ : Interval).pow 2
    = ⟨.finite 0 true, .finite 4 true⟩ := by
  decide +kernel

/-! ## Smaller intervals -/

section

variable {I I' J J' : Interval}

theorem add_subset (hI : I.toSet ⊆ I'.toSet) (hJ : J.toSet ⊆ J'.toSet) :
    (I.add J).toSet ⊆ (I'.add J').toSet := by
  rw [toSet_add, toSet_add]
  exact Set.add_subset_add hI hJ

end

end Interval

end AlgebraicReals
