import Mathlib
import AlgebraicReals.Interval.Division
import AlgebraicReals.Proofs.Interval.Product

set_option autoImplicit false

/-! # Quotients of intervals

Division is multiplication by reciprocals, so all that is new here is which interval, or
which two intervals, the reciprocals of the members of an interval form. On the positive
half-line taking reciprocals reverses the order and exchanges `0` with `+∞`, so that a
lower end becomes an upper one (`Endpoint.mem_above_reciprocal`,
`Endpoint.mem_below_reciprocal`); the negative half-line is its mirror image.

An interval with `0` inside has reciprocals on both half-lines, and this is where an
inverse, and a quotient with it, may fall into two parts. `Interval.inverse_cases` and
`Interval.divParts_cases` say all that the two operations can answer. The main statements
are read off them: quotients are exact (`Interval.quotients_exact`), and which of the two
parts of a quotient comes first is decided by the sign of the dividend
(`Interval.dividend_sign_orders_parts`). -/

namespace AlgebraicReals

open scoped Pointwise

/-! ## Reciprocals of endpoints -/

namespace Endpoint

theorem reciprocal_neg (e : Endpoint) : e.neg.reciprocal = e.reciprocal.neg := by
  rcases e with _ | ⟨v, i⟩
  · rfl
  by_cases hv : v = 0
  · subst hv
    rfl
  · rw [neg, reciprocal, if_neg (neg_ne_zero.mpr hv), reciprocal, if_neg hv, neg,
      one_div_neg_eq_neg_one_div]

/-- An upper end right of `0`, or none, becomes a lower end from `0` on. -/
theorem mem_above_reciprocal {e : Endpoint} (he : ∀ v i, e = finite v i → 0 < v) {x : ℝ} :
    x ∈ e.reciprocal.above ↔ 0 < x ∧ x⁻¹ ∈ e.below := by
  rcases e with _ | ⟨v, i⟩
  · simp [reciprocal, above, below]
  have hv : 0 < v := he v i rfl
  have hv' : (0 : ℝ) < v := Rat.cast_pos.mpr hv
  rw [reciprocal, if_neg hv.ne']
  constructor
  · intro hx
    have hx0 : 0 < x := by
      have hle := le_of_mem_above hx
      rw [Rat.cast_div, Rat.cast_one] at hle
      exact (one_div_pos.mpr hv').trans_le hle
    refine ⟨hx0, ?_⟩
    cases i with
    | true => simpa [above, below] using inv_le_of_inv_le₀ hv' (by simpa [above] using hx)
    | false => simpa [above, below] using inv_lt_of_inv_lt₀ hv' (by simpa [above] using hx)
  · rintro ⟨hx0, hx⟩
    cases i with
    | true => simpa [above, below] using inv_le_of_inv_le₀ hx0 (by simpa [below] using hx)
    | false => simpa [above, below] using inv_lt_of_inv_lt₀ hx0 (by simpa [below] using hx)

/-- A lower end from `0` on becomes an upper end, and `0` becomes none. -/
theorem mem_below_reciprocal {v : Rat} {i : Bool} (hv : 0 ≤ v) {x : ℝ} (hx : 0 < x) :
    x ∈ (finite v i).reciprocal.below ↔ x⁻¹ ∈ (finite v i).above := by
  rcases hv.eq_or_lt with rfl | hv
  · rw [reciprocal, if_pos rfl, mem_above_finite, Rat.cast_zero]
    exact iff_of_true trivial (.inl (inv_pos.mpr hx))
  · have hv' : (0 : ℝ) < v := Rat.cast_pos.mpr hv
    rw [reciprocal, if_neg hv.ne']
    cases i with
    | true => simp [above, below, le_inv_comm₀ hx hv']
    | false => simp [above, below, lt_inv_comm₀ hx hv']

end Endpoint

namespace Interval

/-! ## Intervals without zero -/

/-- An interval without `0` lies on one side of it. -/
theorem forall_pos_or_forall_neg {I : Interval} (h0 : (0 : ℝ) ∉ I.toSet) :
    (∀ x ∈ I.toSet, 0 < x) ∨ ∀ x ∈ I.toSet, x < 0 := by
  by_contra h
  push Not at h
  obtain ⟨⟨x, hx, hx0⟩, y, hy, hy0⟩ := h
  exact h0 (I.ordConnected_toSet.out hx hy ⟨hx0, hy0⟩)

theorem reciprocal_neg (I : Interval) : I.neg.reciprocal = I.reciprocal.neg := by
  rw [reciprocal, reciprocal, isEmpty_neg]
  split
  · rfl
  · show (⟨I.lower.neg.reciprocal, I.upper.neg.reciprocal⟩ : Interval)
      = ⟨I.lower.reciprocal.neg, I.upper.reciprocal.neg⟩
    rw [Endpoint.reciprocal_neg, Endpoint.reciprocal_neg]

theorem toSet_reciprocal_of_pos {I : Interval} (hpos : ∀ x ∈ I.toSet, 0 < x) :
    I.reciprocal.toSet = I.toSet⁻¹ := by
  rw [reciprocal]
  split
  · rename_i hempty
    rw [(isEmpty_iff I).mp hempty, toSet_empty, Set.inv_empty]
  rename_i hempty
  obtain ⟨y, hy⟩ := nonempty_toSet (Bool.eq_false_iff.mpr hempty)
  obtain ⟨l, u⟩ := I
  have hu : ∀ v i, u = .finite v i → 0 < v := by
    rintro v i rfl
    exact Rat.cast_pos.mp ((hpos y hy).trans_le (Endpoint.le_of_mem_below hy.2))
  have h0 : (0 : ℝ) ∉ l.above := by
    intro h0
    exact lt_irrefl _ (hpos 0 ⟨h0, Endpoint.mem_below_of_le hy.2 (hpos y hy).le⟩)
  rcases l with _ | ⟨v, i⟩
  · exact absurd (Set.mem_univ 0) h0
  have hv : 0 ≤ v := by
    by_contra hv
    exact h0 (Endpoint.mem_above_finite.mpr (.inl (Rat.cast_lt_zero.mpr (not_le.mp hv))))
  ext x
  rw [mem_toSet, Endpoint.mem_above_reciprocal hu, Set.mem_inv]
  constructor
  · rintro ⟨⟨hx0, hxu⟩, hxl⟩
    exact ⟨(Endpoint.mem_below_reciprocal hv hx0).mp hxl, hxu⟩
  · intro hx
    have hx0 : 0 < x := inv_pos.mp (hpos _ hx)
    exact ⟨⟨hx0, hx.2⟩, (Endpoint.mem_below_reciprocal hv hx0).mpr hx.1⟩

theorem toSet_reciprocal {I : Interval} (h0 : (0 : ℝ) ∉ I.toSet) :
    I.reciprocal.toSet = I.toSet⁻¹ := by
  rcases forall_pos_or_forall_neg h0 with hpos | hneg
  · exact toSet_reciprocal_of_pos hpos
  · have hmirror : I.neg.reciprocal.toSet = I.neg.toSet⁻¹ := by
      apply toSet_reciprocal_of_pos
      intro x hx
      rw [toSet_neg] at hx
      exact neg_neg_iff_pos.mp (hneg _ hx)
    rw [reciprocal_neg, toSet_neg, toSet_neg] at hmirror
    ext x
    have hx := Set.ext_iff.mp hmirror (-x)
    simpa [Set.mem_neg, Set.mem_inv] using hx

/-! ## Inverses

With `0` inside, the reciprocals of the positive members run from the reciprocal of the
upper bound to `+∞`, and those of the negative members from `-∞` to the reciprocal of the
lower bound. The second half of this is the first one, mirrored. -/

/-- The reciprocals of the positive members. -/
def positiveReciprocals (I : Interval) : Set ℝ :=
  {x | 0 < x ∧ x⁻¹ ∈ I.toSet}

/-- The reciprocals of the negative members. -/
def negativeReciprocals (I : Interval) : Set ℝ :=
  {x | x < 0 ∧ x⁻¹ ∈ I.toSet}

theorem positiveReciprocals_neg (I : Interval) :
    I.neg.positiveReciprocals = -I.negativeReciprocals := by
  ext x
  simp [positiveReciprocals, negativeReciprocals, toSet_neg]

theorem hasPositive_neg (I : Interval) : I.neg.hasPositive = I.hasNegative := by
  obtain ⟨l, u⟩ := I
  cases l with
  | infinite => rfl
  | finite v i =>
      show decide (0 < -v) = decide (v < 0)
      exact decide_eq_decide.mpr neg_pos

theorem inv_diff_zero (I : Interval) :
    (I.toSet \ {0})⁻¹ = I.negativeReciprocals ∪ I.positiveReciprocals := by
  ext x
  rcases lt_trichotomy x 0 with hx | rfl | hx
  · simp [negativeReciprocals, positiveReciprocals, hx, hx.ne, hx.not_gt]
  · simp [negativeReciprocals, positiveReciprocals]
  · simp [negativeReciprocals, positiveReciprocals, hx, hx.ne', hx.not_gt]

theorem isEmpty_of_upper_infinite (e : Endpoint) : (⟨e, .infinite⟩ : Interval).isEmpty = false := by
  cases e <;> rfl

section

variable {I : Interval}

theorem toSet_upperPart (h0 : (0 : ℝ) ∈ I.toSet) (hpos : I.hasPositive = true) :
    (⟨I.upper.reciprocal, .infinite⟩ : Interval).toSet = I.positiveReciprocals := by
  obtain ⟨l, u⟩ := I
  have hu : ∀ v i, u = .finite v i → 0 < v := by
    rintro v i rfl
    exact of_decide_eq_true hpos
  ext x
  rw [mem_toSet, Endpoint.mem_above_reciprocal hu]
  constructor
  · rintro ⟨⟨hx0, hx⟩, -⟩
    exact ⟨hx0, Endpoint.mem_above_of_le h0.1 (inv_pos.mpr hx0).le, hx⟩
  · rintro ⟨hx0, hx⟩
    exact ⟨⟨hx0, hx.2⟩, trivial⟩

theorem positiveReciprocals_eq_empty (hpos : I.hasPositive = false) :
    I.positiveReciprocals = ∅ := by
  obtain ⟨l, u⟩ := I
  rcases u with _ | ⟨v, i⟩
  · cases hpos
  have hv : v ≤ 0 := not_lt.mp (of_decide_eq_false hpos)
  rw [Set.eq_empty_iff_forall_notMem]
  rintro x ⟨hx0, hx⟩
  have hle := (Endpoint.le_of_mem_below hx.2).trans (Rat.cast_nonpos.mpr hv)
  exact absurd (inv_pos.mpr hx0) hle.not_gt

theorem toSet_lowerPart (h0 : (0 : ℝ) ∈ I.toSet) (hneg : I.hasNegative = true) :
    (⟨.infinite, I.lower.reciprocal⟩ : Interval).toSet = I.negativeReciprocals := by
  have h0' : (0 : ℝ) ∈ I.neg.toSet := by
    rw [toSet_neg, Set.mem_neg, neg_zero]
    exact h0
  have hmirror := toSet_upperPart h0' (I.hasPositive_neg.trans hneg)
  rw [positiveReciprocals_neg] at hmirror
  rw [← neg_inj, ← hmirror, ← toSet_neg]
  show (⟨I.lower.reciprocal.neg, .infinite⟩ : Interval).toSet
    = (⟨I.lower.neg.reciprocal, .infinite⟩ : Interval).toSet
  rw [Endpoint.reciprocal_neg]

theorem negativeReciprocals_eq_empty (hneg : I.hasNegative = false) :
    I.negativeReciprocals = ∅ := by
  rw [← Set.neg_eq_empty, ← positiveReciprocals_neg]
  exact positiveReciprocals_eq_empty (I.hasPositive_neg.trans hneg)

end

/-- **All that an inverse can be**: one interval of all reciprocals, or two intervals with
members, the reciprocals of the negative members before those of the positive ones. -/
theorem inverse_cases (I : Interval) :
    (∃ K, I.inverse = .one K ∧ K.toSet = (I.toSet \ {0})⁻¹)
      ∨ ∃ lo hi, I.inverse = .two lo hi ∧ lo.toSet = I.negativeReciprocals
        ∧ hi.toSet = I.positiveReciprocals ∧ lo.toSet.Nonempty ∧ hi.toSet.Nonempty := by
  rw [inverse]
  split
  · rename_i hempty
    refine .inl ⟨empty, rfl, ?_⟩
    rw [(isEmpty_iff I).mp hempty, toSet_empty, Set.empty_sdiff, Set.inv_empty]
  split
  · rename_i hzero
    have h0 : (0 : ℝ) ∉ I.toSet := by
      simpa [Bool.eq_false_iff, contains_iff] using hzero
    refine .inl ⟨I.reciprocal, rfl, ?_⟩
    rw [toSet_reciprocal h0, Set.sdiff_singleton_eq_self h0]
  · rename_i hzero
    have h0 : (0 : ℝ) ∈ I.toSet := by
      simpa [contains_iff] using hzero
    rw [inv_diff_zero]
    cases hneg : I.hasNegative with
    | true =>
        cases hpos : I.hasPositive with
        | true =>
            exact .inr ⟨_, _, rfl, toSet_lowerPart h0 hneg, toSet_upperPart h0 hpos,
              nonempty_toSet rfl, nonempty_toSet (isEmpty_of_upper_infinite _)⟩
        | false =>
            refine .inl ⟨_, rfl, ?_⟩
            rw [toSet_lowerPart h0 hneg, positiveReciprocals_eq_empty hpos, Set.union_empty]
    | false =>
        rw [negativeReciprocals_eq_empty hneg, Set.empty_union]
        cases hpos : I.hasPositive with
        | true => exact .inl ⟨_, rfl, toSet_upperPart h0 hpos⟩
        | false => exact .inl ⟨_, rfl, by rw [toSet_empty, positiveReciprocals_eq_empty hpos]⟩

end Interval

/-! ## Parts -/

namespace Parts

/-- The reals in the parts. -/
def toSet : Parts → Set ℝ
  | one part => part.toSet
  | two first second => first.toSet ∪ second.toSet

/-- If there are two parts, both have members, and none in common. -/
def Apart : Parts → Prop
  | one _ => True
  | two first second =>
    first.toSet.Nonempty ∧ second.toSet.Nonempty ∧ Disjoint first.toSet second.toSet

/-- If there are two parts, the members of the first lie below those of the second. -/
def LowerFirst : Parts → Prop
  | one _ => True
  | two first second => ∀ x ∈ first.toSet, ∀ y ∈ second.toSet, x < y

/-- If there are two parts, the members of the first lie above those of the second. -/
def UpperFirst : Parts → Prop
  | one _ => True
  | two first second => ∀ x ∈ first.toSet, ∀ y ∈ second.toSet, y < x

end Parts

namespace Interval

theorem toSet_inverse (I : Interval) : I.inverse.toSet = (I.toSet \ {0})⁻¹ := by
  rcases I.inverse_cases with ⟨K, hinv, hK⟩ | ⟨lo, hi, hinv, hlo, hhi, -, -⟩
  · rw [hinv]
    exact hK
  · rw [hinv, Parts.toSet, hlo, hhi, inv_diff_zero]

theorem lowerFirst_inverse (I : Interval) : I.inverse.LowerFirst := by
  rcases I.inverse_cases with ⟨K, hinv, -⟩ | ⟨lo, hi, hinv, hlo, hhi, -, -⟩
  · rw [hinv]
    trivial
  · rw [hinv, Parts.LowerFirst, hlo, hhi]
    intro x hx y hy
    exact hx.1.trans hy.1

theorem apart_inverse (I : Interval) : I.inverse.Apart := by
  have hfirst := I.lowerFirst_inverse
  rcases I.inverse_cases with ⟨K, hinv, -⟩ | ⟨lo, hi, hinv, -, -, hlo, hhi⟩
  · rw [hinv]
    trivial
  · rw [hinv] at hfirst ⊢
    refine ⟨hlo, hhi, Set.disjoint_left.mpr ?_⟩
    intro x hx hx'
    exact lt_irrefl x (hfirst x hx x hx')

/-- **All that a quotient can be**: one interval of all quotients, or two disjoint intervals
with members, the quotients by negative members before those by positive ones. -/
theorem divParts_cases (I J : Interval) :
    (∃ K, I.divParts J = .one K ∧ K.toSet = I.toSet / (J.toSet \ {0}))
      ∨ ∃ a b, I.divParts J = .two a b ∧ a.toSet = I.toSet * J.negativeReciprocals
        ∧ b.toSet = I.toSet * J.positiveReciprocals ∧ a.toSet.Nonempty ∧ b.toSet.Nonempty
        ∧ Disjoint a.toSet b.toSet := by
  rw [divParts, div_eq_mul_inv]
  rcases J.inverse_cases with ⟨K, hinv, hK⟩ | ⟨lo, hi, hinv, hlo, hhi, -, -⟩
  · rw [hinv]
    refine .inl ⟨I.mul K, rfl, ?_⟩
    rw [toSet_mul, hK]
  · have ha : (I.mul lo).toSet = I.toSet * J.negativeReciprocals := by rw [toSet_mul, hlo]
    have hb : (I.mul hi).toSet = I.toSet * J.positiveReciprocals := by rw [toSet_mul, hhi]
    rw [hinv, inv_diff_zero, Set.mul_union, ← ha, ← hb]
    by_cases haempty : (I.mul lo).isEmpty = true
    · refine .inl ⟨I.mul hi, if_pos haempty, ?_⟩
      rw [(isEmpty_iff _).mp haempty, Set.empty_union]
    by_cases hbempty : (I.mul hi).isEmpty = true
    · refine .inl ⟨I.mul lo, (if_neg haempty).trans (if_pos hbempty), ?_⟩
      rw [(isEmpty_iff _).mp hbempty, Set.union_empty]
    by_cases hdisj : (I.mul lo).disjoint (I.mul hi) = true
    · exact .inr ⟨_, _, (if_neg haempty).trans ((if_neg hbempty).trans (if_pos hdisj)), rfl, rfl,
        nonempty_toSet (Bool.eq_false_iff.mpr haempty),
        nonempty_toSet (Bool.eq_false_iff.mpr hbempty), (disjoint_iff _ _).mp hdisj⟩
    · -- the two parts overlap, so their hull is their union
      obtain ⟨w, hwa, hwb⟩ := Set.not_disjoint_iff.mp (mt (disjoint_iff _ _).mpr hdisj)
      exact .inl ⟨_, (if_neg haempty).trans ((if_neg hbempty).trans (if_neg hdisj)),
        toSet_hull_of_mem hwa hwb⟩

theorem toSet_divParts (I J : Interval) :
    (I.divParts J).toSet = I.toSet / (J.toSet \ {0}) := by
  rcases I.divParts_cases J with ⟨K, hdiv, hK⟩ | ⟨a, b, hdiv, ha, hb, -, -, -⟩
  · rw [hdiv]
    exact hK
  · rw [hdiv, Parts.toSet, ha, hb, ← Set.mul_union, ← inv_diff_zero, div_eq_mul_inv]

theorem apart_divParts (I J : Interval) : (I.divParts J).Apart := by
  rcases I.divParts_cases J with ⟨K, hdiv, -⟩ | ⟨a, b, hdiv, -, -, hapart⟩
  · rw [hdiv]
    trivial
  · rw [hdiv]
    exact hapart

/-! ## Division -/

theorem div_of_zero_mem {I J : Interval} (h0 : (0 : ℝ) ∈ J.toSet) :
    I.div J = .error .divisorContainsZero := by
  have hzero : J.contains 0 = true := by rwa [contains_iff, Rat.cast_zero]
  rw [div, hzero]
  rfl

theorem div_of_zero_notMem {I J : Interval} (h0 : (0 : ℝ) ∉ J.toSet) :
    ∃ Q, I.div J = .ok Q ∧ Q.toSet = I.toSet / J.toSet := by
  have hzero : ¬J.contains 0 = true := by rwa [contains_iff, Rat.cast_zero]
  refine ⟨I.mul J.reciprocal, if_neg hzero, ?_⟩
  rw [toSet_mul, toSet_reciprocal h0, div_eq_mul_inv]

/-- Multiplying a quotient by its divisor gives the dividend back, and maybe more. -/
theorem subset_mul_of_div {I J Q : Interval} (h0 : (0 : ℝ) ∉ J.toSet) (hJ : J.toSet.Nonempty)
    (hQ : Q.toSet = I.toSet / J.toSet) : I.toSet ⊆ (Q.mul J).toSet := by
  intro x hx
  obtain ⟨y, hy⟩ := hJ
  have hy0 : y ≠ 0 := fun h => h0 (h ▸ hy)
  have hxy : x / y ∈ Q.toSet := by
    rw [hQ]
    exact Set.div_mem_div hx hy
  have hmem := mul_mem hxy hy
  rwa [div_mul_cancel₀ x hy0] at hmem

/-- **Inverses and quotients are exact.** The parts of an inverse hold the reciprocals of
the members other than `0`, and those of a quotient hold the quotients by such members,
and nothing else; if there are two parts, they have members and are disjoint. Plain
division fails exactly if the divisor holds `0`, with the error that says so. Otherwise it
answers the interval of all quotients, and the product of that interval with a divisor
that has members includes the dividend. -/
theorem quotients_exact (I J : Interval) :
    J.inverse.toSet = {z | ∃ y ∈ J.toSet, y ≠ 0 ∧ 1 / y = z}
      ∧ (I.divParts J).toSet = {z | ∃ x ∈ I.toSet, ∃ y ∈ J.toSet, y ≠ 0 ∧ x / y = z}
      ∧ J.inverse.Apart
      ∧ (I.divParts J).Apart
      ∧ (∀ e, I.div J = .error e ↔ e = .divisorContainsZero ∧ (0 : ℝ) ∈ J.toSet)
      ∧ ((0 : ℝ) ∉ J.toSet → ∃ Q, I.div J = .ok Q
        ∧ Q.toSet = {z | ∃ x ∈ I.toSet, ∃ y ∈ J.toSet, x / y = z}
        ∧ (J.toSet.Nonempty → (Q.mul J).includes I = true)) := by
  refine ⟨?_, ?_, J.apart_inverse, I.apart_divParts J, ?_, ?_⟩
  · rw [toSet_inverse, ← Set.image_inv_eq_inv]
    ext z
    constructor
    · rintro ⟨y, ⟨hy, hy0⟩, rfl⟩
      exact ⟨y, hy, hy0, one_div y⟩
    · rintro ⟨y, hy, hy0, rfl⟩
      exact ⟨y, ⟨hy, hy0⟩, (one_div y).symm⟩
  · rw [toSet_divParts]
    ext z
    simp [Set.mem_div, and_assoc]
  · intro e
    by_cases h0 : (0 : ℝ) ∈ J.toSet
    · simp [div_of_zero_mem h0, h0, eq_comm]
    · obtain ⟨Q, hdiv, -⟩ := div_of_zero_notMem (I := I) h0
      simp [hdiv, h0]
  · intro h0
    obtain ⟨Q, hdiv, hQ⟩ := div_of_zero_notMem (I := I) h0
    refine ⟨Q, hdiv, hQ, ?_⟩
    intro hJ
    rw [includes_iff]
    exact subset_mul_of_div h0 hJ hQ

/-! ## The order of the parts -/

/-- An interval with a member, but without `0`, has the sign of that member. -/
theorem sign_eq_ofReal {I : Interval} {x : ℝ} (hx : x ∈ I.toSet) (h0 : (0 : ℝ) ∉ I.toSet) :
    I.sign = Sign.ofReal x := by
  have hsign : I.sign ≠ .zero := fun hzero => h0 (zero_mem_of_sign hzero hx)
  exact (ofReal_eq_sign hsign hx).symm

/-- The products of a set with two other sets have `0` in common if the set holds `0`. -/
theorem zero_notMem_of_disjoint_mul {S T U : Set ℝ} (hT : T.Nonempty) (hU : U.Nonempty)
    (h : Disjoint (S * T) (S * U)) : (0 : ℝ) ∉ S := by
  intro h0
  obtain ⟨t, ht⟩ := hT
  obtain ⟨u, hu⟩ := hU
  have hzero : (0 : ℝ) * t = 0 * u := by rw [zero_mul, zero_mul]
  exact Set.disjoint_left.mp h (Set.mul_mem_mul h0 ht) (hzero ▸ Set.mul_mem_mul h0 hu)

/-- **The sign of the dividend orders the parts.** The parts of an inverse come with the
lower one first. A quotient falls into two parts only if its dividend has a sign, and then
the lower part comes first if the dividend is positive, the upper one if it is
negative. -/
theorem dividend_sign_orders_parts (I J : Interval) :
    J.inverse.LowerFirst
      ∧ ((I.divParts J).isSplit = true →
        (I.sign = .positive ∧ (I.divParts J).LowerFirst)
          ∨ (I.sign = .negative ∧ (I.divParts J).UpperFirst)) := by
  refine ⟨J.lowerFirst_inverse, ?_⟩
  rcases I.divParts_cases J with ⟨K, hdiv, -⟩ | ⟨a, b, hdiv, ha, hb, hane, hbne, hdisj⟩
  · rw [hdiv]
    intro hsplit
    cases hsplit
  intro _
  rw [hdiv]
  rw [ha, Set.mul_nonempty] at hane
  rw [hb, Set.mul_nonempty] at hbne
  rw [ha, hb] at hdisj
  obtain ⟨⟨x, hx⟩, hlo⟩ := hane
  have h0 : (0 : ℝ) ∉ I.toSet := zero_notMem_of_disjoint_mul hlo hbne.2 hdisj
  rw [sign_eq_ofReal hx h0]
  rcases forall_pos_or_forall_neg h0 with hpos | hneg
  · left
    refine ⟨Sign.ofReal_of_pos (hpos x hx), ?_⟩
    rw [Parts.LowerFirst, ha, hb]
    rintro _ ⟨y, hy, t, ht, rfl⟩ _ ⟨z, hz, u, hu, rfl⟩
    calc y * t < 0 := mul_neg_of_pos_of_neg (hpos y hy) ht.1
      _ < z * u := mul_pos (hpos z hz) hu.1
  · right
    refine ⟨Sign.ofReal_of_neg (hneg x hx), ?_⟩
    rw [Parts.UpperFirst, ha, hb]
    rintro _ ⟨y, hy, t, ht, rfl⟩ _ ⟨z, hz, u, hu, rfl⟩
    calc z * u < 0 := mul_neg_of_neg_of_pos (hneg z hz) hu.1
      _ < y * t := mul_pos_of_neg_of_neg (hneg y hy) ht.1

/-- The upper part of `[-2, -1] / [-1, 1]` comes first. -/
theorem negative_dividend_upper_first :
    (⟨.finite (-2) true, .finite (-1) true⟩ : Interval).divParts
        ⟨.finite (-1) true, .finite 1 true⟩
      = .two ⟨.finite 1 true, .infinite⟩ ⟨.infinite, .finite (-1) true⟩
      ∧ ¬((⟨.finite (-2) true, .finite (-1) true⟩ : Interval).divParts
        ⟨.finite (-1) true, .finite 1 true⟩).LowerFirst := by
  have hdiv : (⟨.finite (-2) true, .finite (-1) true⟩ : Interval).divParts
      ⟨.finite (-1) true, .finite 1 true⟩
      = .two ⟨.finite 1 true, .infinite⟩ ⟨.infinite, .finite (-1) true⟩ := by decide +kernel
  refine ⟨hdiv, ?_⟩
  rw [hdiv]
  intro hfirst
  have hone : (1 : ℝ) ∈ (⟨.finite 1 true, .infinite⟩ : Interval).toSet := by
    simp [toSet, Endpoint.above, Endpoint.below]
  have hminus : (-1 : ℝ) ∈ (⟨.infinite, .finite (-1) true⟩ : Interval).toSet := by
    simp [toSet, Endpoint.above, Endpoint.below]
  exact absurd (hfirst 1 hone (-1) hminus) (by norm_num)

end Interval

end AlgebraicReals
