import Mathlib
import AlgebraicReals.Proofs.Interval.Image

set_option autoImplicit false

/-! # Laws of interval arithmetic

Sums and products of sets of numbers commute and associate, and so do sums and products of
intervals, because these are exact. What remains is to get back from the members of an
interval to the interval itself. With members, an interval is determined by them
(`Interval.eq_of_toSet_eq`). Without members it could be written in many ways, but sums,
products and their opposites are always written `(0, 0)` then; this is
`Interval.eq_of_same_members`.

Products distribute over sums in one direction only, since the two products of the same
interval may use different members of it. If it has just one member, they cannot. The same
would go for products of powers, were it not for the intermediate value theorem: unless the
interval has `0` inside, what two members give together is also given by a member between
them (`Interval.pow_mul_pow`). -/

namespace AlgebraicReals.Interval

open scoped Pointwise

/-! ## Intervals with the same members -/

theorem add_eq_empty {I J : Interval} (h : (I.add J).isEmpty = true) : I.add J = empty := by
  rw [isEmpty_iff, toSet_add, Set.add_eq_empty, ← isEmpty_iff, ← isEmpty_iff] at h
  exact add_of_isEmpty h

theorem neg_eq_empty {I : Interval} (hI : I.isEmpty = true → I = empty)
    (h : I.neg.isEmpty = true) : I.neg = empty := by
  rw [isEmpty_neg] at h
  rw [hI h]
  rfl

theorem eq_of_same_members {I J : Interval} (hI : I.isEmpty = true → I = empty)
    (hJ : J.isEmpty = true → J = empty) (h : I.toSet = J.toSet) : I = J := by
  cases hempty : I.isEmpty with
  | true =>
      have hJempty : J.isEmpty = true := by
        rw [isEmpty_iff, ← h, ← isEmpty_iff]
        exact hempty
      rw [hI hempty, hJ hJempty]
  | false => exact eq_of_toSet_eq hempty h

/-! ## Sums and products -/

section

variable (I J K : Interval)

protected theorem add_comm : I.add J = J.add I := by
  apply eq_of_same_members add_eq_empty add_eq_empty
  rw [toSet_add, toSet_add, add_comm]

protected theorem add_assoc : (I.add J).add K = I.add (J.add K) := by
  apply eq_of_same_members add_eq_empty add_eq_empty
  simp only [toSet_add, add_assoc]

protected theorem mul_comm : I.mul J = J.mul I := by
  apply eq_of_same_members mul_eq_empty mul_eq_empty
  rw [toSet_mul, toSet_mul, mul_comm]

protected theorem mul_assoc : (I.mul J).mul K = I.mul (J.mul K) := by
  apply eq_of_same_members mul_eq_empty mul_eq_empty
  simp only [toSet_mul, mul_assoc]

protected theorem neg_add : (I.add J).neg = I.neg.add J.neg := by
  apply eq_of_same_members (neg_eq_empty add_eq_empty) add_eq_empty
  rw [toSet_neg, toSet_add, toSet_add, toSet_neg, toSet_neg, neg_add]

theorem mul_add_subset : (I.mul (J.add K)).toSet ⊆ ((I.mul J).add (I.mul K)).toSet := by
  simp only [toSet_add, toSet_mul]
  exact Set.mul_add_subset _ _ _

/-- A single factor distributes. -/
theorem point_mul_add (x : Rat) :
    (point x).mul (J.add K) = ((point x).mul J).add ((point x).mul K) := by
  apply eq_of_same_members mul_eq_empty add_eq_empty
  simp only [toSet_add, toSet_mul, toSet_point, Set.singleton_mul]
  exact Set.image_add (AddMonoidHom.mulLeft (x : ℝ))

end

/-! ## Powers on one side of `0` -/

theorem pow_eq_empty {I : Interval} {n : Nat} (h : (I.pow n).isEmpty = true) :
    I.pow n = empty := by
  rw [isEmpty_iff, toSet_pow, Set.image_eq_empty, ← isEmpty_iff] at h
  rw [pow, if_pos h]

/-- With members on both sides of `0`, an interval has `0` inside. -/
theorem nonneg_or_nonpos {I : Interval} (h0 : (0 : ℝ) ∉ interior I.toSet) :
    (∀ x ∈ I.toSet, 0 ≤ x) ∨ ∀ x ∈ I.toSet, x ≤ 0 := by
  by_contra hboth
  push Not at hboth
  obtain ⟨⟨x, hx, hx0⟩, y, hy, hy0⟩ := hboth
  have hsub : Set.Ioo x y ⊆ I.toSet :=
    Set.Ioo_subset_Icc_self.trans (I.ordConnected_toSet.out hx hy)
  exact h0 (interior_maximal hsub isOpen_Ioo ⟨hx0, hy0⟩)

section

variable {x y : ℝ}

theorem exists_pow_add_eq_of_nonneg (hx : 0 ≤ x) (hy : 0 ≤ y) (m n : Nat) :
    ∃ z ∈ Set.uIcc x y, z ^ (m + n) = x ^ m * y ^ n := by
  have hbetween : x ^ m * y ^ n ∈ Set.uIcc (x ^ (m + n)) (y ^ (m + n)) := by
    rw [pow_add, pow_add]
    rcases le_total x y with h | h
    · apply Set.mem_uIcc_of_le
      · gcongr
      · gcongr
    · apply Set.mem_uIcc_of_ge
      · gcongr
      · gcongr
  exact intermediate_value_uIcc (continuous_pow (m + n)).continuousOn hbetween

theorem exists_pow_add_eq_of_nonpos (hx : x ≤ 0) (hy : y ≤ 0) (m n : Nat) :
    ∃ z ∈ Set.uIcc x y, z ^ (m + n) = x ^ m * y ^ n := by
  obtain ⟨z, hz, hpow⟩ :=
    exists_pow_add_eq_of_nonneg (neg_nonneg.mpr hx) (neg_nonneg.mpr hy) m n
  rw [← Set.neg_uIcc, Set.mem_neg] at hz
  refine ⟨-z, hz, ?_⟩
  rw [neg_pow, hpow, pow_add, mul_mul_mul_comm, ← neg_pow, ← neg_pow, neg_neg, neg_neg]

end

/-- **Powers of an interval on one side of `0` multiply as powers of a number do.** -/
theorem pow_mul_pow {I : Interval} (h0 : (0 : ℝ) ∉ interior I.toSet) (m n : Nat) :
    (I.pow m).mul (I.pow n) = I.pow (m + n) := by
  apply eq_of_same_members mul_eq_empty pow_eq_empty
  rw [toSet_mul, toSet_pow, toSet_pow, toSet_pow]
  apply Set.Subset.antisymm
  · rintro _ ⟨_, ⟨x, hx, rfl⟩, _, ⟨y, hy, rfl⟩, rfl⟩
    have hpow : ∃ z ∈ Set.uIcc x y, z ^ (m + n) = x ^ m * y ^ n := by
      rcases nonneg_or_nonpos h0 with hI | hI
      · exact exists_pow_add_eq_of_nonneg (hI x hx) (hI y hy) m n
      · exact exists_pow_add_eq_of_nonpos (hI x hx) (hI y hy) m n
    obtain ⟨z, hz, hpow⟩ := hpow
    exact ⟨z, I.ordConnected_toSet.uIcc_subset hx hy hz, hpow⟩
  · rintro _ ⟨x, hx, rfl⟩
    show x ^ (m + n) ∈ _
    rw [pow_add]
    exact Set.mul_mem_mul (Set.mem_image_of_mem _ hx) (Set.mem_image_of_mem _ hx)

/-! ## The laws -/

/-- **The laws of interval arithmetic** hold exactly, for ends of all kinds and also
without members: sums and products commute and associate, the opposite of a sum is the sum
of the opposites, and a product with a sum is included in the sum of the products, to which
it is equal if the common factor is a single point. -/
theorem arithmetic_laws (I J K : Interval) :
    I.add J = J.add I
      ∧ (I.add J).add K = I.add (J.add K)
      ∧ I.mul J = J.mul I
      ∧ (I.mul J).mul K = I.mul (J.mul K)
      ∧ (I.add J).neg = I.neg.add J.neg
      ∧ ((I.mul J).add (I.mul K)).includes (I.mul (J.add K)) = true
      ∧ (I.isPoint = true → I.mul (J.add K) = (I.mul J).add (I.mul K)) := by
  refine ⟨I.add_comm J, I.add_assoc J K, I.mul_comm J, I.mul_assoc J K, I.neg_add J, ?_, ?_⟩
  · rw [includes_iff]
    exact mul_add_subset I J K
  · intro hpoint
    obtain ⟨x, hx⟩ := Option.isSome_iff_exists.mp hpoint
    obtain rfl := (point?_eq_some_iff I x).mp hx
    exact point_mul_add J K x

/-- Multiplying `[1, 2]` with `1` and with `-1` apart gives more than multiplying it with
their sum. -/
example : (⟨.finite 1 true, .finite 2 true⟩ : Interval).mul ((point 1).add (point (-1)))
      = point 0
    ∧ ((⟨.finite 1 true, .finite 2 true⟩ : Interval).mul (point 1)).add
        ((⟨.finite 1 true, .finite 2 true⟩ : Interval).mul (point (-1)))
      = ⟨.finite (-1) true, .finite 1 true⟩ := by
  decide +kernel

end AlgebraicReals.Interval
