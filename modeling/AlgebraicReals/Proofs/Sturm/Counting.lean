import Mathlib
import AlgebraicReals.Proofs.Interval.Membership
import AlgebraicReals.Proofs.Sturm.Variations

set_option autoImplicit false

/-! # Counting real roots

The number of sign changes of a Sturm chain at `x`, plus the number of roots that
are at most `x`, is the same for all real `x`: near a point both change by the
same amount in opposite directions, so the sum is locally constant on a connected
line (`variations_add_card`). Reading the sum far to the left and far to the right
gives the sign changes at the infinite ends the same meaning.

What is left is bookkeeping at the two ends of an interval. A lower end cuts off
roots and an upper end keeps roots; `countRoots` takes the difference, with one
root more or less where an end is itself a root. -/

namespace AlgebraicReals

open Polynomial Filter Topology

/-! ## Members of a finite set up to a point -/

theorem eventually_filter_le_of_lt (S : Finset ℝ) (c : ℝ) :
    ∀ᶠ x in 𝓝[<] c, S.filter (· ≤ x) = S.filter (· < c) := by
  have hev : ∀ᶠ x in 𝓝[<] c, ∀ s ∈ S, s < c → s ≤ x := by
    refine nhdsWithin_le_nhds ((Filter.eventually_all_finset S).mpr fun s _ => ?_)
    by_cases hs : s < c
    · filter_upwards [lt_mem_nhds hs] with x hx _ using hx.le
    · exact Eventually.of_forall fun x h => absurd h hs
  filter_upwards [hev, self_mem_nhdsWithin] with x hx hlt
  exact Finset.filter_congr fun s hs => ⟨fun h => h.trans_lt hlt, hx s hs⟩

theorem eventually_filter_le_of_gt (S : Finset ℝ) (c : ℝ) :
    ∀ᶠ x in 𝓝[>] c, S.filter (· ≤ x) = S.filter (· ≤ c) := by
  have hev : ∀ᶠ x in 𝓝[>] c, ∀ s ∈ S, s ≤ x → s ≤ c := by
    refine nhdsWithin_le_nhds ((Filter.eventually_all_finset S).mpr fun s _ => ?_)
    by_cases hs : c < s
    · filter_upwards [gt_mem_nhds hs] with x hx h using absurd hx h.not_gt
    · exact Eventually.of_forall fun x _ => not_lt.mp hs
  filter_upwards [hev, self_mem_nhdsWithin] with x hx hgt
  exact Finset.filter_congr fun s hs => ⟨hx s hs, fun h => h.trans (le_of_lt hgt)⟩

theorem card_filter_le (S : Finset ℝ) (c : ℝ) :
    (S.filter (· ≤ c)).card = (S.filter (· < c)).card + if c ∈ S then 1 else 0 := by
  have hsplit : S.filter (· ≤ c) = S.filter (· < c) ∪ S.filter (· = c) := by
    rw [← Finset.filter_or]
    exact Finset.filter_congr fun s _ => le_iff_lt_or_eq
  have hdisj : Disjoint (S.filter (· < c)) (S.filter (· = c)) :=
    Finset.disjoint_filter.mpr fun s _ hlt heq => hlt.ne heq
  rw [hsplit, Finset.card_union_of_disjoint hdisj, Finset.filter_eq']
  split <;> simp

/-- Members of a chain whose signs settle do so together. -/
theorem eventually_signsAt_eq {F : Filter ℝ} {sign : Poly → Sign}
    (h : ∀ p : Poly, ∀ᶠ x in F, Sign.ofReal (p.realEval x) = sign p) (ps : List Poly) :
    ∀ᶠ x in F, signsAt ps x = ps.map sign := by
  induction ps with
  | nil => exact Eventually.of_forall fun x => rfl
  | cons q qs ih =>
      filter_upwards [ih, h q] with x hx hq
      rw [signsAt_cons, List.map_cons, hx, hq]

/-! ## The sum that does not change -/

section Sum

variable {p : Poly} (h : IsCoprime p.toPolynomial p.derivative.toPolynomial)
  (S : Finset ℝ) (hS : ∀ x, x ∈ S ↔ p.realEval x = 0)

include h hS

theorem isLocallyConstant_variations_add_card :
    IsLocallyConstant fun x : ℝ =>
      variations (signsAt (p :: negatedRemainders p p.derivative) x)
        + (S.filter (· ≤ x)).card := by
  refine (IsLocallyConstant.iff_eventually_eq _).mpr fun c => ?_
  rw [← pure_sup_nhdsNE, ← nhdsLT_sup_nhdsGT, eventually_sup, eventually_sup]
  refine ⟨rfl, ?_, ?_⟩
  · -- left of a root there is one change more and one root less
    by_cases hc : p.realEval c = 0
    · filter_upwards [(eventually_variations_at_root p h hc).1, eventually_filter_le_of_lt S c]
        with x hx hf
      rw [hx, hf, card_filter_le S c, if_pos ((hS c).mpr hc)]
      omega
    · filter_upwards [nhdsWithin_le_nhds ((eventually_variations_eq c p _ h).1 hc),
        eventually_filter_le_of_lt S c] with x hx hf
      rw [hx, hf, card_filter_le S c, if_neg (mt (hS c).mp hc)]
      omega
  · by_cases hc : p.realEval c = 0
    · filter_upwards [(eventually_variations_at_root p h hc).2, eventually_filter_le_of_gt S c]
        with x hx hf
      rw [hx, hf]
    · filter_upwards [nhdsWithin_le_nhds ((eventually_variations_eq c p _ h).1 hc),
        eventually_filter_le_of_gt S c] with x hx hf
      rw [hx, hf]

/-- **Sign changes at `x` and roots up to `x` sum to a constant.** -/
theorem variations_add_card (x y : ℝ) :
    variations (signsAt (p :: negatedRemainders p p.derivative) x) + (S.filter (· ≤ x)).card
      = variations (signsAt (p :: negatedRemainders p p.derivative) y)
        + (S.filter (· ≤ y)).card :=
  (isLocallyConstant_variations_add_card h S hS).apply_eq_of_preconnectedSpace x y

/-- Far to the left there are no roots, and the signs are those at infinity. -/
theorem variations_negInfinity (x : ℝ) :
    variations ((p :: negatedRemainders p p.derivative).map (·.signAtNegInfinity))
      = variations (signsAt (p :: negatedRemainders p p.derivative) x)
        + (S.filter (· ≤ x)).card := by
  have hsigns := eventually_signsAt_eq Poly.eventually_sign_atBot
    (p :: negatedRemainders p p.derivative)
  have hroots : ∀ᶠ y in atBot, S.filter (· ≤ y) = ∅ := by
    have hall : ∀ᶠ y in atBot, ∀ s ∈ S, y < s :=
      (Filter.eventually_all_finset S).mpr fun s _ => eventually_lt_atBot s
    filter_upwards [hall] with y hy
    exact Finset.filter_eq_empty_iff.mpr fun s hs => (hy s hs).not_ge
  obtain ⟨y, hy, hroots⟩ := (hsigns.and hroots).exists
  rw [← hy, variations_add_card h S hS x y, hroots, Finset.card_empty, add_zero]

/-- Far to the right all roots have been passed. -/
theorem variations_posInfinity (x : ℝ) :
    variations ((p :: negatedRemainders p p.derivative).map (·.signAtPosInfinity)) + S.card
      = variations (signsAt (p :: negatedRemainders p p.derivative) x)
        + (S.filter (· ≤ x)).card := by
  have hsigns := eventually_signsAt_eq Poly.eventually_sign_atTop
    (p :: negatedRemainders p p.derivative)
  have hroots : ∀ᶠ y in atTop, S.filter (· ≤ y) = S := by
    have hall : ∀ᶠ y in atTop, ∀ s ∈ S, s ≤ y :=
      (Filter.eventually_all_finset S).mpr fun s _ => eventually_ge_atTop s
    filter_upwards [hall] with y hy
    exact Finset.filter_true_of_mem hy
  obtain ⟨y, hy, hroots⟩ := (hsigns.and hroots).exists
  rw [← hy, variations_add_card h S hS x y, hroots]

end Sum

namespace Poly

theorem finite_realRoots {p : Poly} (hp : p.isZero = false) : p.realRoots.Finite := by
  refine (p.toPolynomial.rootSet_finite ℝ).subset fun x hx => ?_
  exact (mem_rootSet_of_ne (toPolynomial_ne_zero hp)).mpr hx

end Poly

namespace SturmChain

/-! ## The ends of an interval

`S` is the set of roots in what follows. The sign changes at a lower end, the roots
it cuts off and the root it includes sum to the constant, and so do the sign
changes at an upper end, the roots it keeps and the root it excludes. -/

variable (c : SturmChain)

theorem members_eq : c.members = c.head :: negatedRemainders c.head c.head.derivative := by
  rw [members, c.tail_eq]

theorem variationsAt_eq (x : Rat) :
    c.variationsAt x
      = variations (signsAt (c.head :: negatedRemainders c.head c.head.derivative) x) := by
  rw [variationsAt, members_eq, signsAt]
  refine congrArg variations (List.map_congr_left fun q _ => ?_)
  exact (q.ofReal_realEval_ratCast x).symm

variable {c} (hc : c.source.isZero = false)

include hc

theorem isCoprime_head : IsCoprime c.head.toPolynomial c.head.derivative.toPolynomial := by
  rw [c.head_eq]
  exact Poly.separable_squareFreePart hc

theorem realRoots_head : c.head.realRoots = c.source.realRoots := by
  rw [c.head_eq]
  exact Poly.realRoots_squareFreePart hc

/-- A rational is a root exactly if the test on the head of the chain says so. -/
theorem isRoot_iff (x : Rat) : c.isRoot x = true ↔ (x : ℝ) ∈ c.source.realRoots := by
  rw [← realRoots_head hc, Poly.mem_realRoots, Poly.realEval_ratCast, Rat.cast_eq_zero, isRoot,
    decide_eq_true_iff]

variable (S : Finset ℝ) (hS : ∀ x, x ∈ S ↔ x ∈ c.source.realRoots)

include hS

open Classical in
theorem variationsAtLower_add (e : Endpoint) :
    c.variationsAtLower e + (S.filter (· ∉ e.above)).card
        + (if e.kind.isIncluded && c.isRoot e.value then 1 else 0)
      = c.variationsAtNegInfinity := by
  have hS' : ∀ x, x ∈ S ↔ c.head.realEval x = 0 := by
    intro x
    rw [hS, ← realRoots_head hc, Poly.mem_realRoots]
  rcases e with _ | ⟨v, _ | _⟩
  · simp [variationsAtLower, Endpoint.above, Endpoint.kind, BoundKind.isIncluded]
  · rw [variationsAtNegInfinity, members_eq, variations_negInfinity (isCoprime_head hc) S hS' v,
      variationsAtLower, variationsAt_eq]
    simp [Endpoint.above, Endpoint.kind, BoundKind.isIncluded]
  · rw [variationsAtNegInfinity, members_eq, variations_negInfinity (isCoprime_head hc) S hS' v,
      variationsAtLower, variationsAt_eq, card_filter_le S v]
    simp [Endpoint.above, Endpoint.kind, BoundKind.isIncluded, Endpoint.value,
      isRoot_iff hc, hS, add_assoc]

open Classical in
theorem variationsAtUpper_add (e : Endpoint) :
    c.variationsAtUpper e + (S.filter (· ∈ e.below)).card
        + (if e.kind.isExcluded && c.isRoot e.value then 1 else 0)
      = c.variationsAtNegInfinity := by
  have hS' : ∀ x, x ∈ S ↔ c.head.realEval x = 0 := by
    intro x
    rw [hS, ← realRoots_head hc, Poly.mem_realRoots]
  have hneg := variations_negInfinity (isCoprime_head hc) S hS'
  rcases e with _ | ⟨v, _ | _⟩
  · rw [variationsAtNegInfinity, members_eq, hneg 0,
      ← variations_posInfinity (isCoprime_head hc) S hS' 0, variationsAtUpper,
      variationsAtPosInfinity, members_eq]
    simp [Endpoint.below, Endpoint.kind, BoundKind.isExcluded]
  · rw [variationsAtNegInfinity, members_eq, hneg v, variationsAtUpper, variationsAt_eq,
      card_filter_le S v]
    simp [Endpoint.below, Endpoint.kind, BoundKind.isExcluded, Endpoint.value,
      isRoot_iff hc, hS, add_assoc]
  · rw [variationsAtNegInfinity, members_eq, hneg v, variationsAtUpper, variationsAt_eq]
    simp [Endpoint.below, Endpoint.kind, BoundKind.isExcluded]

omit hc hS in
open Classical in
/-- The roots in an interval are those its upper end keeps, less those its lower end
cuts off. -/
theorem card_filter_toSet {I : Interval} (hI : I.isEmpty = false) :
    (S.filter (· ∈ I.toSet)).card + (S.filter (· ∉ I.lower.above)).card
      = (S.filter (· ∈ I.upper.below)).card := by
  rw [← Finset.card_filter_add_card_filter_not (s := S.filter (· ∈ I.upper.below))
    (· ∈ I.lower.above), Finset.filter_filter, Finset.filter_filter]
  congr 2
  · exact Finset.filter_congr fun x _ => (I.mem_toSet x).trans and_comm
  · refine Finset.filter_congr fun x _ => ⟨fun hx => ⟨?_, hx⟩, fun hx => hx.2⟩
    exact Interval.mem_below_of_notMem_above hI hx

omit hS in
/-- A head that is a number has no root, as it is not zero. -/
theorem notMem_realRoots_of_isConstant (h : c.head.isConstant = true) (x : ℝ) :
    x ∉ c.source.realRoots := by
  intro hx
  have hroot : c.head.realEval x = 0 := by
    rw [← Poly.mem_realRoots, realRoots_head hc]
    exact hx
  have hhead : c.head.isZero = false := by
    rw [c.head_eq]
    exact Poly.squareFreePart_isZero hc
  have hconst := Poly.toPolynomial_of_isConstant h
  rw [Poly.realEval_of_isConstant h, Rat.cast_eq_zero] at hroot
  rw [hroot, C_0] at hconst
  exact Poly.toPolynomial_ne_zero hhead hconst

open Classical in
/-- A root on an included lower end is one of the roots in the interval. -/
theorem lower_le_card {I : Interval} (hI : I.isEmpty = false) :
    (if I.lower.kind.isIncluded && c.isRoot I.lower.value then 1 else 0)
      ≤ (S.filter (· ∈ I.toSet)).card := by
  split
  · rename_i hl
    obtain ⟨hl, hroot⟩ := Bool.and_eq_true _ _ ▸ hl
    refine Finset.card_pos.mpr ⟨I.lower.value, Finset.mem_filter.mpr ⟨?_, ?_⟩⟩
    · exact (hS _).mpr ((isRoot_iff hc _).mp hroot)
    · exact Interval.lower_mem hI hl
  · exact Nat.zero_le _

open Classical in
/-- **Root counting is exact.** The count is the number of members of the interval
among the roots. -/
theorem countRoots_eq_card (I : Interval) :
    c.countRoots I = (S.filter (· ∈ I.toSet)).card := by
  unfold countRoots
  split
  · rename_i h
    symm
    rw [Finset.card_eq_zero, Finset.filter_eq_empty_iff]
    intro x hx hxI
    rcases Bool.or_eq_true .. ▸ h with h | h
    · rw [Interval.isEmpty_eq_false hxI] at h
      cases h
    · exact notMem_realRoots_of_isConstant hc h x ((hS x).mp hx)
  · rename_i h
    have hI : I.isEmpty = false := by
      rw [Bool.or_eq_true, not_or] at h
      exact Bool.eq_false_iff.mpr h.1
    split
    · rename_i x hx
      obtain rfl := (Interval.point?_eq_some_iff I x).mp hx
      simp only [Interval.toSet_point, Set.mem_singleton_iff, Finset.filter_eq', hS,
        ← isRoot_iff hc]
      split <;> simp
    · have hlower := variationsAtLower_add hc S hS I.lower
      have hupper := variationsAtUpper_add hc S hS I.upper
      have hcard := card_filter_toSet S hI
      -- neither subtraction of the count is cut off at zero, because of this
      have hself := lower_le_card hc S hS hI
      simp only
      split_ifs at hlower hupper hself ⊢ <;> omega

end SturmChain

namespace SturmChain

variable {c : SturmChain} (hc : c.source.isZero = false) (I : Interval)

include hc

theorem countRoots_eq_one_iff :
    c.countRoots I = 1 ↔ ∃ α, c.source.realRoots ∩ I.toSet = {α} := by
  classical
  have hfin := Poly.finite_realRoots hc
  rw [countRoots_eq_card hc hfin.toFinset (fun x => hfin.mem_toFinset) I, Finset.card_eq_one]
  refine exists_congr fun α => ?_
  rw [← Finset.coe_inj, Finset.coe_filter, Finset.coe_singleton]
  simp only [Set.Finite.mem_toFinset]
  rfl

theorem countRoots_pos_iff :
    0 < c.countRoots I ↔ ∃ x, x ∈ c.source.realRoots ∧ x ∈ I.toSet := by
  classical
  have hfin := Poly.finite_realRoots hc
  rw [countRoots_eq_card hc hfin.toFinset (fun x => hfin.mem_toFinset) I, Finset.card_pos]
  simp only [Finset.Nonempty, Finset.mem_filter, Set.Finite.mem_toFinset]

end SturmChain

/-- Two polynomials, the first not zero, have a common root in an interval exactly
if the test says so. -/
theorem Poly.haveCommonRoot_iff {p : Poly} (hp : p.isZero = false) (q : Poly) (I : Interval) :
    p.haveCommonRoot q I = true
      ↔ ∃ x, p.realEval x = 0 ∧ q.realEval x = 0 ∧ x ∈ I.toSet := by
  have hgcd : (SturmChain.ofPoly (p.gcd q)).source.isZero = false := gcd_isZero hp q
  have hcount := SturmChain.countRoots_pos_iff hgcd I
  simp only [SturmChain.source_ofPoly, mem_realRoots, realEval_gcd_eq_zero_iff, and_assoc]
    at hcount
  rw [haveCommonRoot, Bool.and_eq_true, decide_eq_true_iff, hcount]
  constructor
  · exact fun h => h.2
  · rintro ⟨x, hp, hq, hx⟩
    exact ⟨by rw [Interval.isEmpty_eq_false hx]; rfl, x, hp, hq, hx⟩

/-- The number of distinct real roots of `p` in `I`, for every polynomial but zero
and every interval, whatever kinds of ends it has: roots on the ends count exactly if
the ends are included, multiple roots count once, and empty intervals hold none. -/
theorem SturmChain.countRoots_eq_encard (p : Poly) (hp : p ≠ .zero) (I : Interval) :
    ((SturmChain.ofPoly p).countRoots I : ℕ∞) = (p.realRoots ∩ I.toSet).encard := by
  classical
  have hz : (ofPoly p).source.isZero = false := Poly.isZero_eq_false_of_ne hp
  have hfin := Poly.finite_realRoots hz
  rw [countRoots_eq_card hz hfin.toFinset (fun x => hfin.mem_toFinset) I,
    ← Set.encard_coe_eq_coe_finsetCard]
  congr 1
  ext x
  simp

/-- The polynomial `(x - 1)²·(x² - 2)` has two roots from `1` on, its double root `1`
at the end of the interval and `√2`. -/
theorem SturmChain.countRoots_eq_encard_at_double_root :
    Poly.ofCoeffs [-2, 4, -1, -2, 1] ≠ .zero
      ∧ ((Poly.ofCoeffs [-2, 4, -1, -2, 1]).realRoots
          ∩ (⟨.finite 1 true, .infinite⟩ : Interval).toSet).encard = 2 := by
  have hp : Poly.ofCoeffs [-2, 4, -1, -2, 1] ≠ .zero := by decide
  have hcount : (SturmChain.ofPoly (.ofCoeffs [-2, 4, -1, -2, 1])).countRoots
      ⟨.finite 1 true, .infinite⟩ = 2 := by decide +kernel
  refine ⟨hp, ?_⟩
  rw [← SturmChain.countRoots_eq_encard _ hp, hcount]
  rfl

end AlgebraicReals
