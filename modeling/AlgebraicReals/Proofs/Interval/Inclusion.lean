import Mathlib
import AlgebraicReals.Proofs.Interval.Product

set_option autoImplicit false

/-! # Intervals ordered by inclusion

Whether an interval is empty, includes another one or has a sign is decided by comparing
bounds. Each of these tests means something for the members, and it means the same for
rational members as for real ones. Rational numbers are enough because all bounds are
rational: an irrational number outside an interval has a whole neighbourhood outside of it
(`Interval.compl_mem_nhds_of_irrational`), just as one inside has a neighbourhood inside, so
that a real number that tells two intervals apart can be moved to a rational one
(`Interval.subset_iff_forall_rat`).

By inclusion, intervals form a lattice. The intersection is the largest interval inside
two intervals, since its members are the common ones. The hull is the smallest interval
around both, since an interval with members that lies inside a third one has its half-lines
inside those of the third one (`Interval.subset_iff`), and the hull is made of these. -/

namespace AlgebraicReals.Interval

/-! ## Rational members -/

theorem compl_mem_nhds_of_irrational {I : Interval} {x : ℝ} (hx : x ∉ I.toSet)
    (hirr : Irrational x) : I.toSetᶜ ∈ nhds x := by
  obtain ⟨l, u⟩ := I
  rcases not_and_or.mp hx with hl | hu
  · rcases l with _ | ⟨v, i⟩
    · exact absurd trivial hl
    · have hxv : x < v := by
        refine lt_of_le_of_ne (not_lt.mp fun hvx => hl ?_) (hirr.ne_rat v)
        exact Endpoint.mem_above_finite.mpr (.inl hvx)
      exact Filter.mem_of_superset (Iio_mem_nhds hxv) fun y hy hyI =>
        (Endpoint.le_of_mem_above hyI.1).not_gt hy
  · rcases u with _ | ⟨v, i⟩
    · exact absurd trivial hu
    · have hvx : v < x := by
        refine lt_of_le_of_ne (not_lt.mp fun hxv => hu ?_) (hirr.ne_rat v).symm
        exact Endpoint.mem_below_finite.mpr (.inl hxv)
      exact Filter.mem_of_superset (Ioi_mem_nhds hvx) fun y hy hyI =>
        (Endpoint.le_of_mem_below hyI.2).not_gt hy

/-- Rational members decide inclusion. -/
theorem subset_iff_forall_rat (I J : Interval) :
    J.toSet ⊆ I.toSet ↔ ∀ x : Rat, (x : ℝ) ∈ J.toSet → (x : ℝ) ∈ I.toSet := by
  constructor
  · intro h x hx
    exact h hx
  · intro h x hx
    by_contra hxI
    by_cases hirr : Irrational x
    · -- close to `x` there is a rational that tells the two intervals apart
      obtain ⟨q, hqJ, hqI⟩ := exists_rat_mem_of_mem_nhds
        (Filter.inter_mem (mem_nhds_of_irrational hx hirr) (compl_mem_nhds_of_irrational hxI hirr))
      exact hqI (h q hqJ)
    · obtain ⟨q, rfl⟩ := not_not.mp hirr
      exact hxI (h q hx)

theorem includes_iff_forall_contains (I J : Interval) :
    I.includes J = true ↔ ∀ x, J.contains x = true → I.contains x = true := by
  simp only [includes_iff, subset_iff_forall_rat, contains_iff]

/-! ## Emptiness -/

theorem isEmpty_iff_forall_contains (I : Interval) :
    I.isEmpty = true ↔ ∀ x, I.contains x = false := by
  constructor
  · intro h x
    rw [Bool.eq_false_iff, Ne, contains_iff, (isEmpty_iff I).mp h]
    exact Set.notMem_empty _
  · intro h
    by_contra hI
    obtain ⟨y, hy⟩ := nonempty_toSet (Bool.eq_false_iff.mpr hI)
    obtain ⟨q, hq⟩ := exists_rat_mem hy
    exact Bool.false_ne_true ((h q).symm.trans ((contains_iff I q).mpr hq))

/-- The midpoint of an interval with members is one of them. -/
theorem midpoint_mem {I : Interval} (h : I.isEmpty = false) : (I.midpoint : ℝ) ∈ I.toSet := by
  obtain ⟨l, u⟩ := I
  rcases l with _ | ⟨l, a⟩
  · rcases u with _ | ⟨u, b⟩
    · exact ⟨trivial, trivial⟩
    · refine ⟨trivial, Endpoint.mem_below_finite.mpr (.inl ?_)⟩
      exact Rat.cast_lt.mpr (sub_one_lt u)
  · rcases u with _ | ⟨u, b⟩
    · refine ⟨Endpoint.mem_above_finite.mpr (.inl ?_), trivial⟩
      exact Rat.cast_lt.mpr (lt_add_one l)
    · by_cases hlu : l < u
      · refine ⟨Endpoint.mem_above_finite.mpr (.inl ?_), Endpoint.mem_below_finite.mpr (.inl ?_)⟩
        · exact Rat.cast_lt.mpr (Rational.lt_midpoint hlu)
        · exact Rat.cast_lt.mpr (Rational.midpoint_lt hlu)
      · -- without room between the bounds, the only member is their common number
        simp only [isEmpty, hlu, decide_false, Bool.false_or, Bool.not_eq_false',
          Bool.and_eq_true, decide_eq_true_eq] at h
        obtain ⟨⟨rfl, rfl⟩, rfl⟩ := h
        have hmid : (point l).midpoint = l := add_self_div_two l
        show ((point l).midpoint : ℝ) ∈ (point l).toSet
        rw [hmid, toSet_point]
        exact Set.mem_singleton _

theorem isEmpty_iff_midpoint (I : Interval) :
    I.isEmpty = true ↔ I.contains I.midpoint = false := by
  constructor
  · intro h
    exact (isEmpty_iff_forall_contains I).mp h I.midpoint
  · intro h
    by_contra hI
    have hmem := (contains_iff I _).mpr (midpoint_mem (Bool.eq_false_iff.mpr hI))
    exact Bool.false_ne_true (h.symm.trans hmem)

/-! ## Equality -/

/-- Two intervals include each other if they are equal, and otherwise only if there is nothing
to include. -/
theorem includes_antisymm_iff (I J : Interval) :
    I.includes J = true ∧ J.includes I = true
      ↔ I = J ∨ (I.isEmpty = true ∧ J.isEmpty = true) := by
  rw [includes_iff, includes_iff]
  constructor
  · rintro ⟨hJI, hIJ⟩
    have hset : I.toSet = J.toSet := Set.Subset.antisymm hIJ hJI
    cases hI : I.isEmpty with
    | false => exact .inl (eq_of_toSet_eq hI hset)
    | true =>
        right
        rw [isEmpty_iff, ← hset, ← isEmpty_iff]
        exact ⟨rfl, hI⟩
  · rintro (rfl | ⟨hI, hJ⟩)
    · exact ⟨subset_rfl, subset_rfl⟩
    · rw [(isEmpty_iff I).mp hI, (isEmpty_iff J).mp hJ]
      exact ⟨subset_rfl, subset_rfl⟩

/-! ## Signs -/

section

variable {I : Interval} {s : Sign}

theorem isEmpty_eq_false_of_sign_ne_zero (h : I.sign ≠ .zero) : I.isEmpty = false := by
  by_contra hI
  rw [Bool.not_eq_false] at hI
  exact h (by rw [sign, if_pos hI])

/-- The sign that all rational members have is the sign of the interval: the number `0`, were
it a member, would have another one. -/
theorem sign_eq_of_forall_contains (hs : s ≠ .zero) (hI : I.isEmpty = false)
    (h : ∀ x, I.contains x = true → Sign.ofRat x = s) : I.sign = s := by
  obtain ⟨y, hy⟩ := nonempty_toSet hI
  by_cases hzero : I.sign = .zero
  · have h0 : ((0 : Rat) : ℝ) ∈ I.toSet := by
      rw [Rat.cast_zero]
      exact zero_mem_of_sign hzero hy
    exact absurd (h 0 ((contains_iff I 0).mpr h0)).symm hs
  · obtain ⟨q, hq⟩ := exists_rat_mem hy
    rw [← ofReal_eq_sign hzero hq, Sign.ofReal_ratCast]
    exact h q ((contains_iff I q).mpr hq)

theorem sign_eq_iff_forall_mem (hs : s ≠ .zero) :
    I.sign = s ↔ I.isEmpty = false ∧ ∀ x ∈ I.toSet, Sign.ofReal x = s := by
  constructor
  · rintro rfl
    exact ⟨isEmpty_eq_false_of_sign_ne_zero hs, fun x hx => ofReal_eq_sign hs hx⟩
  · rintro ⟨hI, h⟩
    refine sign_eq_of_forall_contains hs hI fun x hx => ?_
    rw [← Sign.ofReal_ratCast]
    exact h x ((contains_iff I x).mp hx)

theorem sign_eq_iff_forall_contains (hs : s ≠ .zero) :
    I.sign = s ↔ I.isEmpty = false ∧ ∀ x, I.contains x = true → Sign.ofRat x = s := by
  constructor
  · intro h
    obtain ⟨hI, hmem⟩ := (sign_eq_iff_forall_mem hs).mp h
    refine ⟨hI, fun x hx => ?_⟩
    rw [← Sign.ofReal_ratCast]
    exact hmem x ((contains_iff I x).mp hx)
  · rintro ⟨hI, h⟩
    exact sign_eq_of_forall_contains hs hI h

end

theorem sign_eq_zero_iff (I : Interval) :
    I.sign = .zero ↔ I.isEmpty = true ∨ I.contains 0 = true := by
  rw [contains_iff, Rat.cast_zero]
  constructor
  · intro h
    cases hI : I.isEmpty with
    | true => exact .inl rfl
    | false =>
        obtain ⟨y, hy⟩ := nonempty_toSet hI
        exact .inr (zero_mem_of_sign h hy)
  · rintro (hI | h0)
    · rw [sign, if_pos hI]
    · by_contra hne
      rw [← ofReal_eq_sign hne h0, Sign.ofReal_zero] at hne
      exact hne rfl

/-- **Tests on bounds decide what they say about members.** An interval counts as empty
exactly if it has no rational member, and exactly if its midpoint is none. One interval
includes another exactly if all rational members of the second are members of the first, and
exactly if all real ones are. Intervals that include each other are equal unless both are
empty. The sign is negative exactly if there are members and all of them are negative, rational
or real, and likewise for positive; it is zero in all other cases, which are those of an empty
interval and of one with `0` in it. -/
theorem tests_decide_members (I J : Interval) :
    (I.isEmpty = true ↔ ∀ x, I.contains x = false)
      ∧ (I.isEmpty = true ↔ I.contains I.midpoint = false)
      ∧ (I.includes J = true ↔ ∀ x, J.contains x = true → I.contains x = true)
      ∧ (I.includes J = true ↔ J.toSet ⊆ I.toSet)
      ∧ (I.includes J = true ∧ J.includes I = true
        ↔ I = J ∨ (I.isEmpty = true ∧ J.isEmpty = true))
      ∧ (I.sign = .negative ↔ I.isEmpty = false ∧ ∀ x, I.contains x = true → x < 0)
      ∧ (I.sign = .negative ↔ I.isEmpty = false ∧ ∀ x ∈ I.toSet, x < 0)
      ∧ (I.sign = .positive ↔ I.isEmpty = false ∧ ∀ x, I.contains x = true → 0 < x)
      ∧ (I.sign = .positive ↔ I.isEmpty = false ∧ ∀ x ∈ I.toSet, 0 < x)
      ∧ (I.sign = .zero ↔ I.isEmpty = true ∨ I.contains 0 = true) := by
  have hnegative : Sign.negative ≠ .zero := fun h => Sign.noConfusion h
  have hpositive : Sign.positive ≠ .zero := fun h => Sign.noConfusion h
  refine ⟨I.isEmpty_iff_forall_contains, I.isEmpty_iff_midpoint, I.includes_iff_forall_contains J,
    I.includes_iff J, I.includes_antisymm_iff J, ?_, ?_, ?_, ?_, I.sign_eq_zero_iff⟩
  · simp only [sign_eq_iff_forall_contains hnegative, Sign.ofRat_eq_negative_iff]
  · simp only [sign_eq_iff_forall_mem hnegative, Sign.ofReal_eq_negative_iff]
  · simp only [sign_eq_iff_forall_contains hpositive, Sign.ofRat_eq_positive_iff]
  · simp only [sign_eq_iff_forall_mem hpositive, Sign.ofReal_eq_positive_iff]

/-- Touching at an excluded end, `(0, 1]` has a sign and does not include `[0, 1]`. -/
example : (⟨.finite 0 false, .finite 1 true⟩ : Interval).sign = .positive
    ∧ (⟨.finite 0 false, .finite 1 true⟩ : Interval).includes ⟨.finite 0 true, .finite 1 true⟩
      = false := by
  decide +kernel

/-! ## Largest interval inside, smallest interval around -/

/-- An intersection without members is always the interval `(0, 0)`. -/
theorem inter_eq_empty {I J : Interval} (h : (I.inter J).isEmpty = true) : I.inter J = empty := by
  rw [inter] at h ⊢
  split
  · rfl
  · rename_i hK
    rw [if_neg hK] at h
    exact absurd (Bool.or_eq_true_iff.mpr (.inr h)) hK

theorem hull_subset {I J K : Interval} (hI : I.toSet ⊆ K.toSet) (hJ : J.toSet ⊆ K.toSet) :
    (I.hull J).toSet ⊆ K.toSet := by
  cases hIempty : I.isEmpty with
  | true =>
      rw [hull, hIempty]
      exact hJ
  | false =>
      cases hJempty : J.isEmpty with
      | true =>
          rw [hull, hIempty, hJempty]
          exact hI
      | false =>
          obtain ⟨hIlower, hIupper⟩ := (subset_iff hIempty).mp hI
          obtain ⟨hJlower, hJupper⟩ := (subset_iff hJempty).mp hJ
          rw [toSet_hull hIempty hJempty]
          exact Set.inter_subset_inter (Set.union_subset hIlower hJlower)
            (Set.union_subset hIupper hJupper)

/-- **Intersection and hull are the meet and the join of inclusion.** A number, rational or
real, is in the intersection exactly if it is in both intervals; so the intersection includes
what both include, and if nothing is common to them it is the interval `(0, 0)`. The hull
includes both intervals, and every interval that includes both includes it. -/
theorem inter_is_meet_hull_is_join (I J : Interval) :
    (∀ x, (I.inter J).contains x = true ↔ I.contains x = true ∧ J.contains x = true)
      ∧ (∀ x, x ∈ (I.inter J).toSet ↔ x ∈ I.toSet ∧ x ∈ J.toSet)
      ∧ (∀ K, (I.inter J).includes K = true ↔ I.includes K = true ∧ J.includes K = true)
      ∧ ((I.inter J).isEmpty = true ↔ I.inter J = empty)
      ∧ (I.hull J).includes I = true
      ∧ (I.hull J).includes J = true
      ∧ ∀ K : Interval,
        K.includes (I.hull J) = true ↔ K.includes I = true ∧ K.includes J = true := by
  simp only [includes_iff, contains_iff, toSet_inter]
  refine ⟨fun x => Iff.rfl, fun x => Iff.rfl, fun K => Set.subset_inter_iff, ⟨inter_eq_empty, ?_⟩,
    I.subset_hull_left J, I.subset_hull_right J, fun K => ⟨fun h => ?_, fun h => ?_⟩⟩
  · intro h
    rw [h]
    rfl
  · exact ⟨(I.subset_hull_left J).trans h, (I.subset_hull_right J).trans h⟩
  · exact hull_subset h.1 h.2

/-- Two intervals that touch at an end meet in it only if both include it, and are joined
across it in any case. -/
example : (⟨.finite 0 true, .finite 1 true⟩ : Interval).inter ⟨.finite 1 false, .finite 2 true⟩
      = empty
    ∧ (⟨.finite 0 true, .finite 1 true⟩ : Interval).hull ⟨.finite 1 false, .finite 2 true⟩
      = ⟨.finite 0 true, .finite 2 true⟩ := by
  decide +kernel

end AlgebraicReals.Interval
