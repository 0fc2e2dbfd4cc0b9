import Mathlib
import AlgebraicReals.Proofs.Interval.Span

set_option autoImplicit false

/-! # Products of intervals are exact

The interval that `Interval.mul` answers with is the set of products of members, no more
and no less. `Corner.mul_mem_up` and `Corner.mul_mem_down` say that products keep to the
corners. Here the corners are shown to be reached: numbers that come close to two corners
have products that come close to the product of the corners (`Corner.ReachedBy.mul`), also
where one of them is infinite. As products of members form a connected set, nothing else
lies between the corners.

With rational members only, the argument by connectedness is not available. Instead, an
irrational member can be moved a little without leaving the interval, since the bounds are
rational, and so the factors of a rational product can be made rational
(`Interval.exists_rat_mul_eq`). -/

namespace AlgebraicReals

open scoped Pointwise

/-! ## Products of corners are reached -/

namespace Corner

theorem mul_neg (p q : Corner) : p.mul q.neg = (p.mul q).neg := by
  rw [mul_comm, neg_mul, mul_comm q p]

section

variable {p q : Corner} {S T : Set ℝ}

theorem not_bddAbove_mul {s : ℝ} (hs : s ∈ S) (hpos : 0 < s) (hT : ¬BddAbove T) :
    ¬BddAbove (S * T) := by
  rw [not_bddAbove_iff]
  intro b
  obtain ⟨t, ht, hbt⟩ := not_bddAbove_iff.mp hT (b / s)
  exact ⟨s * t, Set.mul_mem_mul hs ht, (div_lt_iff₀' hpos).mp hbt⟩

/-- A number times infinity: near a positive number there are positive ones, and near `0`
every fixed factor has small products. -/
theorem ReachedBy.scaleInfinity {v : Rat} {a : Bool} (hv : 0 ≤ v) (h : (point v a).ReachedBy S)
    (hT : ¬BddAbove T) : (scaleInfinity v a true).ReachedBy (S * T) := by
  rcases hv.eq_or_lt with rfl | hv
  · obtain ⟨t, ht⟩ := nonempty_of_not_bddAbove hT
    have hzero : ((0 : Rat) : ℝ) * t = ((0 : Rat) : ℝ) := by rw [Rat.cast_zero, zero_mul]
    rw [scaleInfinity_zero]
    refine ⟨?_, ?_⟩
    · have hmaps : Set.MapsTo (fun s : ℝ => s * t) S (S * T) := fun s hs => Set.mul_mem_mul hs ht
      have hclosure := map_mem_closure (continuous_mul_const t) h.1 hmaps
      rwa [hzero] at hclosure
    · intro ha
      have hmem := Set.mul_mem_mul (h.2 ha) ht
      rwa [hzero] at hmem
  · rw [scaleInfinity_of_pos hv]
    have hv' : (v : ℝ) ∈ Set.Ioi (0 : ℝ) := Set.mem_Ioi.mpr (Rat.cast_pos.mpr hv)
    obtain ⟨s, hs, hsS⟩ := mem_closure_iff.mp h.1 (Set.Ioi 0) isOpen_Ioi hv'
    exact not_bddAbove_mul hsS hs hT

theorem ReachedBy.mul_posInfinity (hp : p.ReachedBy S) (hT : ¬BddAbove T) :
    (p.mul posInfinity).ReachedBy (S * T) := by
  rcases p with _ | ⟨v, a⟩ | _
  · obtain ⟨s, hs, hs0⟩ := not_bddBelow_iff.mp hp 0
    have hneg : ¬BddAbove (-S * T) :=
      not_bddAbove_mul (Set.neg_mem_neg.mpr hs) (neg_pos.mpr hs0) hT
    rwa [HasDistribNeg.neg_mul, bddAbove_neg] at hneg
  · rcases le_total 0 v with hv | hv
    · exact hp.scaleInfinity hv hT
    · have hneg := ReachedBy.scaleInfinity (neg_nonneg.mpr hv) hp.neg hT
      rw [scaleInfinity_neg, HasDistribNeg.neg_mul, reachedBy_neg_iff] at hneg
      exact hneg
  · obtain ⟨s, hs, hs0⟩ := not_bddAbove_iff.mp hp 0
    exact not_bddAbove_mul hs hs0 hT

theorem ReachedBy.mul_negInfinity (hp : p.ReachedBy S) (hT : ¬BddBelow T) :
    (p.mul negInfinity).ReachedBy (S * T) := by
  have hneg := hp.mul_posInfinity (bddAbove_neg.not.mpr hT)
  rw [HasDistribNeg.mul_neg, show posInfinity = negInfinity.neg from rfl, mul_neg,
    reachedBy_neg_iff] at hneg
  exact hneg

theorem ReachedBy.mul_points {v w : Rat} {a b : Bool} (hp : (point v a).ReachedBy S)
    (hq : (point w b).ReachedBy T) (hS : S.Nonempty) (hT : T.Nonempty) :
    ((point v a).mul (point w b)).ReachedBy (S * T) := by
  refine ⟨?_, ?_⟩
  · rw [Rat.cast_mul]
    exact map_mem_closure₂ continuous_mul hp.1 hq.1 fun s hs t ht => Set.mul_mem_mul hs ht
  · intro hatt
    simp only [Bool.or_eq_true, Bool.and_eq_true, decide_eq_true_eq] at hatt
    rw [Rat.cast_mul]
    rcases hatt with (⟨ha, hb⟩ | ⟨rfl, ha⟩) | ⟨rfl, hb⟩
    · exact Set.mul_mem_mul (hp.2 ha) (hq.2 hb)
    · -- an attained `0` is the product with any other number
      obtain ⟨t, ht⟩ := hT
      have hmem := Set.mul_mem_mul (hp.2 ha) ht
      rwa [Rat.cast_zero, zero_mul] at hmem ⊢
    · obtain ⟨s, hs⟩ := hS
      have hmem := Set.mul_mem_mul hs (hq.2 hb)
      rwa [Rat.cast_zero, mul_zero] at hmem ⊢

/-- **Products reach the product of the corners.** -/
theorem ReachedBy.mul (hp : p.ReachedBy S) (hq : q.ReachedBy T) (hS : S.Nonempty)
    (hT : T.Nonempty) : (p.mul q).ReachedBy (S * T) := by
  rcases q with _ | ⟨w, b⟩ | _
  · exact hp.mul_negInfinity hq
  · rcases p with _ | ⟨v, a⟩ | _
    · rw [mul_comm, CommMonoid.mul_comm S T]
      exact hq.mul_negInfinity hp
    · exact hp.mul_points hq hS hT
    · rw [mul_comm, CommMonoid.mul_comm S T]
      exact hq.mul_posInfinity hp
  · exact hp.mul_posInfinity hq

end

end Corner

namespace Interval

/-! ## The set of products -/

theorem ordConnected_mul {S T : Set ℝ} (hS : S.OrdConnected) (hT : T.OrdConnected) :
    (S * T).OrdConnected := by
  have himage := (hS.isPreconnected.prod hT.isPreconnected).image
    (fun p : ℝ × ℝ => p.1 * p.2) continuous_mul.continuousOn
  rw [Set.image_mul_prod] at himage
  exact himage.ordConnected

theorem toSet_mul (I J : Interval) : (I.mul J).toSet = I.toSet * J.toSet := by
  by_cases hI : I.isEmpty = true
  · rw [mul, hI, (isEmpty_iff I).mp hI, Set.empty_mul]
    exact toSet_empty
  by_cases hJ : J.isEmpty = true
  · rw [mul, hJ, Bool.or_true, (isEmpty_iff J).mp hJ, Set.mul_empty]
    exact toSet_empty
  rw [Bool.not_eq_true] at hI hJ
  have hIne := nonempty_toSet hI
  have hJne := nonempty_toSet hJ
  have ha := Corner.reachedBy_ofLower hI
  have hb := Corner.reachedBy_ofUpper hI
  have hc := Corner.reachedBy_ofLower hJ
  have hd := Corner.reachedBy_ofUpper hJ
  have hac := ha.mul hc hIne hJne
  have had := ha.mul hd hIne hJne
  have hbc := hb.mul hc hIne hJne
  have hbd := hb.mul hd hIne hJne
  rw [mul, hI, hJ]
  refine toSet_of_reachedBy (hIne.mul hJne)
    (ordConnected_mul I.ordConnected_toSet J.ordConnected_toSet) ?_ ?_
    (((hac.min had).min hbc).min hbd) (((hac.max had).max hbc).max hbd)
  · rintro _ ⟨x, hx, y, hy, rfl⟩
    exact (Corner.mul_mem_corners hx hy).1
  · rintro _ ⟨x, hx, y, hy, rfl⟩
    exact (Corner.mul_mem_corners hx hy).2

/-- A product is empty only if a factor is, and then it is the interval `(0, 0)`. -/
theorem mul_eq_empty {I J : Interval} (h : (I.mul J).isEmpty = true) : I.mul J = empty := by
  rw [isEmpty_iff, toSet_mul, Set.mul_eq_empty, ← isEmpty_iff, ← isEmpty_iff] at h
  rw [mul]
  exact if_pos (Bool.or_eq_true_iff.mpr h)

/-! ## Ends that belong to the interval -/

section

variable {I : Interval} {v : Rat} {i : Bool}

/-- An interval that is `(0, 0)` whenever it is empty holds exactly its included ends. -/
theorem lower_included_iff (hI : I.isEmpty = true → I = empty) (hl : I.lower = .finite v i) :
    i = true ↔ (v : ℝ) ∈ I.toSet := by
  cases hempty : I.isEmpty with
  | true =>
      rw [hI hempty] at hl ⊢
      cases hl
      simp
  | false =>
      have hend := isLowerEnd_lower hempty
      rw [hl] at hend
      exact hend.2

theorem upper_included_iff (hI : I.isEmpty = true → I = empty) (hu : I.upper = .finite v i) :
    i = true ↔ (v : ℝ) ∈ I.toSet := by
  cases hempty : I.isEmpty with
  | true =>
      rw [hI hempty] at hu ⊢
      cases hu
      simp
  | false =>
      have hend := isUpperEnd_upper hempty
      rw [hu] at hend
      exact hend.2

end

/-! ## Rational members -/

theorem mem_nhds_of_irrational {I : Interval} {x : ℝ} (hx : x ∈ I.toSet) (hirr : Irrational x) :
    I.toSet ∈ nhds x := by
  obtain ⟨l, u⟩ := I
  refine Filter.inter_mem ?_ ?_
  · rcases l with _ | ⟨v, i⟩
    · exact Filter.univ_mem
    · have hvx : (v : ℝ) < x := (Endpoint.le_of_mem_above hx.1).lt_of_ne (hirr.ne_rat v).symm
      exact Filter.mem_of_superset (Ioi_mem_nhds hvx) fun y hy =>
        Endpoint.mem_above_finite.mpr (.inl hy)
  · rcases u with _ | ⟨v, i⟩
    · exact Filter.univ_mem
    · have hxv : x < (v : ℝ) := (Endpoint.le_of_mem_below hx.2).lt_of_ne (hirr.ne_rat v)
      exact Filter.mem_of_superset (Iio_mem_nhds hxv) fun y hy =>
        Endpoint.mem_below_finite.mpr (.inl hy)

theorem exists_rat_mem_of_mem_nhds {S : Set ℝ} {x : ℝ} (h : S ∈ nhds x) :
    ∃ q : Rat, (q : ℝ) ∈ S := by
  obtain ⟨_, ⟨q, rfl⟩, hq⟩ := Dense.inter_nhds_nonempty Rat.denseRange_cast h
  exact ⟨q, hq⟩

theorem exists_rat_mem {I : Interval} {x : ℝ} (hx : x ∈ I.toSet) :
    ∃ q : Rat, (q : ℝ) ∈ I.toSet := by
  by_cases hirr : Irrational x
  · exact exists_rat_mem_of_mem_nhds (mem_nhds_of_irrational hx hirr)
  · obtain ⟨q, rfl⟩ := not_not.mp hirr
    exact ⟨q, hx⟩

/-- The factors of a rational product can be chosen rational. -/
theorem exists_rat_mul_eq {I J : Interval} {x y : ℝ} {z : Rat} (hx : x ∈ I.toSet)
    (hy : y ∈ J.toSet) (hxy : x * y = z) :
    ∃ q r : Rat, (q : ℝ) ∈ I.toSet ∧ (r : ℝ) ∈ J.toSet ∧ q * r = z := by
  by_cases hx0 : x = 0
  · obtain ⟨r, hr⟩ := exists_rat_mem hy
    have hz : z = 0 := by rwa [hx0, zero_mul, eq_comm, Rat.cast_eq_zero] at hxy
    refine ⟨0, r, ?_, hr, ?_⟩
    · rwa [Rat.cast_zero, ← hx0]
    · rw [hz, zero_mul]
  have hyz : y = z / x := eq_div_of_mul_eq hx0 (by rwa [mul_comm])
  by_cases hz : z = 0
  · -- the other factor is `0`, whatever the first one is
    obtain ⟨q, hq⟩ := exists_rat_mem hx
    refine ⟨q, 0, hq, ?_, ?_⟩
    · rwa [hyz, hz, Rat.cast_zero, zero_div, ← Rat.cast_zero] at hy
    · rw [hz, mul_zero]
  by_cases hirr : Irrational x
  · -- both factors are irrational, and the second one depends continuously on the first
    have hcont : ContinuousAt (fun t : ℝ => (z : ℝ) / t) x :=
      continuousAt_const.div₀ continuousAt_id hx0
    have hI : ∀ᶠ t in nhds x, t ∈ I.toSet := mem_nhds_of_irrational hx hirr
    have hJ : ∀ᶠ t in nhds x, (z : ℝ) / t ∈ J.toSet := by
      rw [hyz] at hy
      exact hcont.eventually (mem_nhds_of_irrational hy (hirr.ratCast_div hz))
    obtain ⟨q, ⟨hqI, hqJ⟩, hq0⟩ :=
      exists_rat_mem_of_mem_nhds ((hI.and hJ).and (eventually_ne_nhds hx0))
    refine ⟨q, z / q, hqI, ?_, mul_div_cancel₀ z (Rat.cast_ne_zero.mp hq0)⟩
    rwa [Rat.cast_div]
  · obtain ⟨q, rfl⟩ := not_not.mp hirr
    refine ⟨q, z / q, hx, ?_, mul_div_cancel₀ z (Rat.cast_ne_zero.mp hx0)⟩
    rwa [Rat.cast_div, ← hyz]

/-- **Multiplication is exact.** The reals in the product of two intervals are the products
of their members, and nothing else; a bound of the product is included exactly if it is
such a product; and a rational lies in the product exactly if it is a product of rational
members. Ends of all kinds, points and empty intervals are covered. -/
theorem mul_exact (I J : Interval) :
    (I.mul J).toSet = {z | ∃ x ∈ I.toSet, ∃ y ∈ J.toSet, x * y = z}
      ∧ (∀ v i, (I.mul J).lower = .finite v i →
        (i = true ↔ ∃ x ∈ I.toSet, ∃ y ∈ J.toSet, x * y = v))
      ∧ (∀ v i, (I.mul J).upper = .finite v i →
        (i = true ↔ ∃ x ∈ I.toSet, ∃ y ∈ J.toSet, x * y = v))
      ∧ ∀ z, (I.mul J).contains z = true ↔
        ∃ x y, I.contains x = true ∧ J.contains y = true ∧ x * y = z := by
  have hset : (I.mul J).toSet = {z | ∃ x ∈ I.toSet, ∃ y ∈ J.toSet, x * y = z} := I.toSet_mul J
  refine ⟨hset, ?_, ?_, ?_⟩
  · intro v i hl
    rw [lower_included_iff mul_eq_empty hl, hset]
    exact Iff.rfl
  · intro v i hu
    rw [upper_included_iff mul_eq_empty hu, hset]
    exact Iff.rfl
  · intro z
    simp only [contains_iff]
    constructor
    · intro hz
      rw [hset] at hz
      obtain ⟨x, hx, y, hy, hxy⟩ := hz
      exact exists_rat_mul_eq hx hy hxy
    · rintro ⟨x, y, hx, hy, rfl⟩
      rw [Rat.cast_mul]
      exact mul_mem hx hy

/-- The included `0` makes the upper bound attained, though no member of `(-1, 0)` is `0`. -/
example : (⟨.finite 0 true, .infinite⟩ : Interval).mul ⟨.finite (-1) false, .finite 0 false⟩
    = ⟨.infinite, .finite 0 true⟩ := by
  decide +kernel

end Interval

end AlgebraicReals
