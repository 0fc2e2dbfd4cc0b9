import Mathlib
import AlgebraicReals.Proofs.Interval.Enclosure

set_option autoImplicit false

/-! # Intervals spanned by a set of numbers

That an operation encloses its results is one half of being exact. The other half is that
the interval it answers with holds nothing else, and this is a statement about the two
ends only: the results of a continuous operation on members form a connected set, so all
that lies between two results is a result, too.

`Corner.ReachedBy S p` says that numbers of `S` come as close to the corner `p` as one
likes, and that the corner is one of them if it is attained. An interval between two
corners that a connected set reaches, and that it keeps to, is that set: this is
`Interval.toSet_of_reachedBy`. Conversely, the members of an interval tell its ends
(`Interval.isLowerEnd_lower`, `Interval.isUpperEnd_upper`), so that intervals with the same
members, if there are any, are equal. -/

namespace AlgebraicReals

open scoped Pointwise

/-! ## Change of sign -/

namespace Endpoint

theorem mem_above_neg {e : Endpoint} {x : ℝ} : x ∈ e.neg.above ↔ -x ∈ e.below := by
  rcases e with _ | ⟨v, _ | _⟩
  · exact Iff.rfl
  · simp [neg, above, below, neg_lt]
  · simp [neg, above, below, neg_le]

theorem mem_below_neg {e : Endpoint} {x : ℝ} : x ∈ e.neg.below ↔ -x ∈ e.above := by
  rcases e with _ | ⟨v, _ | _⟩
  · exact Iff.rfl
  · simp [neg, above, below, lt_neg]
  · simp [neg, above, below, le_neg]

end Endpoint

namespace Interval

theorem toSet_neg (I : Interval) : I.neg.toSet = -I.toSet := by
  ext x
  exact (and_congr Endpoint.mem_above_neg Endpoint.mem_below_neg).trans and_comm

theorem isEmpty_neg (I : Interval) : I.neg.isEmpty = I.isEmpty := by
  rw [Bool.eq_iff_iff, isEmpty_iff, isEmpty_iff, toSet_neg, Set.neg_eq_empty]

theorem ordConnected_toSet (I : Interval) : I.toSet.OrdConnected := by
  constructor
  intro x hx y hy z hz
  exact ⟨Endpoint.mem_above_of_le hx.1 hz.1, Endpoint.mem_below_of_le hy.2 hz.2⟩

end Interval

/-! ## Reaching a corner -/

namespace Corner

/-- Numbers of `S` come arbitrarily close to the corner, and it is one of them if it is
attained. -/
def ReachedBy (S : Set ℝ) : Corner → Prop
  | negInfinity => ¬BddBelow S
  | point v attained => (v : ℝ) ∈ closure S ∧ (attained = true → (v : ℝ) ∈ S)
  | posInfinity => ¬BddAbove S

section

variable {p q : Corner} {S T : Set ℝ}

theorem ReachedBy.neg (h : p.ReachedBy S) : p.neg.ReachedBy (-S) := by
  rcases p with _ | ⟨v, i⟩ | _
  · exact fun hb => h (bddAbove_neg.mp hb)
  · obtain ⟨hv, hi⟩ := h
    refine ⟨?_, ?_⟩
    · rw [← neg_closure, Set.mem_neg, Rat.cast_neg, InvolutiveNeg.neg_neg]
      exact hv
    · intro hatt
      rw [Set.mem_neg, Rat.cast_neg, InvolutiveNeg.neg_neg]
      exact hi hatt
  · exact fun hb => h (bddBelow_neg.mp hb)

theorem reachedBy_neg_iff : p.neg.ReachedBy (-S) ↔ p.ReachedBy S := by
  refine ⟨fun h => ?_, ReachedBy.neg⟩
  have h' := h.neg
  rwa [neg_neg, InvolutiveNeg.neg_neg] at h'

/-- What lies from a reached corner on has a number of the set to its left. -/
theorem ReachedBy.exists_le (h : p.ReachedBy S) {z : ℝ} (hz : z ∈ p.up) : ∃ s ∈ S, s ≤ z := by
  rcases p with _ | ⟨v, i⟩ | _
  · obtain ⟨s, hs, hsz⟩ := not_bddBelow_iff.mp h z
    exact ⟨s, hs, hsz.le⟩
  · rcases Endpoint.mem_above_finite.mp hz with hvz | ⟨hi, rfl⟩
    · obtain ⟨s, hsz, hs⟩ := mem_closure_iff.mp h.1 (Set.Iio z) isOpen_Iio hvz
      exact ⟨s, hs, le_of_lt hsz⟩
    · exact ⟨v, h.2 hi, le_rfl⟩
  · exact absurd hz (Set.notMem_empty z)

theorem ReachedBy.exists_ge (h : p.ReachedBy S) {z : ℝ} (hz : z ∈ p.down) : ∃ s ∈ S, z ≤ s := by
  obtain ⟨s, hs, hsz⟩ := h.neg.exists_le (neg_mem_up_neg.mpr hz)
  exact ⟨-s, hs, le_neg_of_le_neg hsz⟩

theorem ReachedBy.min (hp : p.ReachedBy S) (hq : q.ReachedBy S) : (p.min q).ReachedBy S := by
  rcases p with _ | ⟨v, a⟩ | _
  · exact hp
  · rcases q with _ | ⟨w, b⟩ | _
    · exact hq
    · rcases lt_trichotomy v w with h | rfl | h
      · rw [Corner.min, Rational.order_of_lt h]
        exact hp
      · rw [Corner.min, Rational.order_self]
        refine ⟨hp.1, fun hab => ?_⟩
        rcases Bool.or_eq_true_iff.mp hab with ha | hb
        · exact hp.2 ha
        · exact hq.2 hb
      · rw [Corner.min, Rational.order_of_gt h]
        exact hq
    · exact hp
  · rcases q with _ | ⟨w, b⟩ | _ <;> exact hq

theorem ReachedBy.max (hp : p.ReachedBy S) (hq : q.ReachedBy S) : (p.max q).ReachedBy S := by
  have hmin := (hp.neg.min hq.neg).neg
  rw [min_eq_neg_max, neg_neg, neg_neg, neg_neg, InvolutiveNeg.neg_neg] at hmin
  exact hmin

end

/-- As an end of an interval, a corner that bounds some number leaves what it leaves as a
corner. -/
theorem above_toEndpoint {p : Corner} {x : ℝ} (hx : x ∈ p.up) : p.toEndpoint.above = p.up := by
  rcases p with _ | ⟨v, i⟩ | _
  · rfl
  · rfl
  · exact absurd hx (Set.notMem_empty x)

theorem below_toEndpoint {p : Corner} {x : ℝ} (hx : x ∈ p.down) :
    p.toEndpoint.below = p.down := by
  rcases p with _ | ⟨v, i⟩ | _
  · exact absurd hx (Set.notMem_empty x)
  · rfl
  · rfl

/-! ### The ends of an interval with members -/

theorem reachedBy_ofLower {I : Interval} (h : I.isEmpty = false) :
    (ofLower I.lower).ReachedBy I.toSet := by
  obtain ⟨y, hy⟩ := Interval.nonempty_toSet h
  have hmem := fun hl => Interval.lower_mem h hl
  obtain ⟨l, u⟩ := I
  rcases l with _ | ⟨v, i⟩
  · refine not_bddBelow_iff.mpr fun b => ⟨Min.min y (b - 1), ⟨trivial, ?_⟩, ?_⟩
    · exact Endpoint.mem_below_of_le hy.2 (min_le_left y (b - 1))
    · exact (min_le_right y (b - 1)).trans_lt (sub_one_lt b)
  · refine ⟨?_, fun hi => hmem (by rw [hi]; rfl)⟩
    rcases (Endpoint.le_of_mem_above hy.1).eq_or_lt with hv | hv
    · rw [hv]
      exact subset_closure hy
    · -- all that follows `v` up to the member `y` is a member
      have hsub : Set.Ioc (v : ℝ) y ⊆ (⟨.finite v i, u⟩ : Interval).toSet := by
        intro x hx
        exact ⟨Endpoint.mem_above_finite.mpr (.inl hx.1), Endpoint.mem_below_of_le hy.2 hx.2⟩
      apply closure_mono hsub
      rw [closure_Ioc hv.ne]
      exact Set.left_mem_Icc.mpr hv.le

theorem ofUpper_eq_neg (e : Endpoint) : ofUpper e = (ofLower e.neg).neg := by
  cases e with
  | infinite => rfl
  | finite v i => exact (neg_neg (point v i)).symm

theorem reachedBy_ofUpper {I : Interval} (h : I.isEmpty = false) :
    (ofUpper I.upper).ReachedBy I.toSet := by
  have hneg := (reachedBy_ofLower ((I.isEmpty_neg).trans h)).neg
  rw [I.toSet_neg, InvolutiveNeg.neg_neg] at hneg
  rw [ofUpper_eq_neg]
  exact hneg

end Corner

/-- **The interval that a connected set spans.** A connected set with members that keeps
to two corners and reaches both is all of the interval between them. -/
theorem Interval.toSet_of_reachedBy {p q : Corner} {S : Set ℝ} (hne : S.Nonempty)
    (hS : S.OrdConnected) (hup : S ⊆ p.up) (hdown : S ⊆ q.down) (hp : p.ReachedBy S)
    (hq : q.ReachedBy S) : (⟨p.toEndpoint, q.toEndpoint⟩ : Interval).toSet = S := by
  obtain ⟨s, hs⟩ := hne
  rw [toSet, Corner.above_toEndpoint (hup hs), Corner.below_toEndpoint (hdown hs)]
  apply Set.Subset.antisymm
  · rintro z ⟨hz, hz'⟩
    obtain ⟨x, hx, hxz⟩ := hp.exists_le hz
    obtain ⟨y, hy, hzy⟩ := hq.exists_ge hz'
    exact hS.out hx hy ⟨hxz, hzy⟩
  · intro z hz
    exact ⟨hup hz, hdown hz⟩

/-! ## Ends are determined

The two ends of an interval with members can be read off its members: they are the bounds of
the set, and they are included if they belong to it. So there is only one way to write an
interval with members. -/

namespace Endpoint

/-- The lower end of a set of reals: a number is the greatest lower bound, included exactly
if it is in the set, and an infinite end says that there is no lower bound. -/
def IsLowerEnd (S : Set ℝ) : Endpoint → Prop
  | infinite => ¬BddBelow S
  | finite v included => IsGLB S (v : ℝ) ∧ (included = true ↔ (v : ℝ) ∈ S)

/-- The upper end of a set of reals. -/
def IsUpperEnd (S : Set ℝ) : Endpoint → Prop
  | infinite => ¬BddAbove S
  | finite v included => IsLUB S (v : ℝ) ∧ (included = true ↔ (v : ℝ) ∈ S)

section

variable {e f : Endpoint} {S : Set ℝ}

theorem isLowerEnd_neg_iff : e.neg.IsLowerEnd (-S) ↔ e.IsUpperEnd S := by
  cases e with
  | infinite => exact bddBelow_neg.not
  | finite v i =>
      simp only [neg, IsLowerEnd, IsUpperEnd, Rat.cast_neg, isGLB_neg', Set.neg_mem_neg]

theorem IsLowerEnd.unique (he : e.IsLowerEnd S) (hf : f.IsLowerEnd S) : e = f := by
  rcases e with _ | ⟨v, i⟩
  · rcases f with _ | ⟨w, j⟩
    · rfl
    · exact absurd hf.1.bddBelow he
  · rcases f with _ | ⟨w, j⟩
    · exact absurd he.1.bddBelow hf
    · obtain rfl : v = w := Rat.cast_injective (he.1.unique hf.1)
      rw [Bool.eq_iff_iff.mpr (he.2.trans hf.2.symm)]

theorem IsUpperEnd.unique (he : e.IsUpperEnd S) (hf : f.IsUpperEnd S) : e = f := by
  have hneg := (isLowerEnd_neg_iff.mpr he).unique (isLowerEnd_neg_iff.mpr hf)
  rw [← neg_neg e, hneg, neg_neg]

end

end Endpoint

namespace Interval

theorem isLowerEnd_lower {I : Interval} (h : I.isEmpty = false) :
    I.lower.IsLowerEnd I.toSet := by
  have hreached := Corner.reachedBy_ofLower h
  cases hl : I.lower with
  | infinite =>
      rw [hl] at hreached
      exact hreached
  | finite v i =>
      rw [hl] at hreached
      have habove : ∀ x ∈ I.toSet, x ∈ (Endpoint.finite v i).above := fun x hx => hl ▸ hx.1
      have hbound : (v : ℝ) ∈ lowerBounds I.toSet := fun x hx =>
        Endpoint.le_of_mem_above (habove x hx)
      refine ⟨isGLB_of_mem_closure hbound hreached.1, hreached.2, fun hv => ?_⟩
      exact ((Endpoint.mem_above_finite.mp (habove v hv)).resolve_left (lt_irrefl _)).1

theorem isUpperEnd_upper {I : Interval} (h : I.isEmpty = false) :
    I.upper.IsUpperEnd I.toSet := by
  have hneg := isLowerEnd_lower (I.isEmpty_neg.trans h)
  rw [toSet_neg] at hneg
  exact Endpoint.isLowerEnd_neg_iff.mp hneg

/-- The interval has exactly the members of `S`, and if there are any, its ends are those of
the set. -/
structure IsExactly (I : Interval) (S : Set ℝ) : Prop where
  members : I.toSet = S
  lower : S.Nonempty → I.lower.IsLowerEnd S
  upper : S.Nonempty → I.upper.IsUpperEnd S

theorem isExactly_of_toSet_eq {I : Interval} {S : Set ℝ} (h : I.toSet = S) : I.IsExactly S := by
  subst h
  refine ⟨rfl, fun hne => ?_, fun hne => ?_⟩
  · obtain ⟨x, hx⟩ := hne
    exact isLowerEnd_lower (isEmpty_eq_false hx)
  · obtain ⟨x, hx⟩ := hne
    exact isUpperEnd_upper (isEmpty_eq_false hx)

/-- An interval with members is determined by them. -/
theorem eq_of_toSet_eq {I J : Interval} (hI : I.isEmpty = false) (h : I.toSet = J.toSet) :
    I = J := by
  have hJ := isExactly_of_toSet_eq h.symm
  have hne := nonempty_toSet hI
  obtain ⟨l, u⟩ := I
  obtain ⟨l', u'⟩ := J
  obtain rfl : l = l' := (isLowerEnd_lower hI).unique (hJ.lower hne)
  obtain rfl : u = u' := (isUpperEnd_upper hI).unique (hJ.upper hne)
  rfl

/-- An interval with members, all of them equal, is a single point. -/
theorem eq_point_of_subset_singleton {I : Interval} {y : Rat} (hI : I.isEmpty = false)
    (h : I.toSet ⊆ {(y : ℝ)}) : I = point y := by
  refine eq_of_toSet_eq hI ?_
  rw [toSet_point]
  exact (nonempty_toSet hI).subset_singleton_iff.mp h

end Interval

end AlgebraicReals
