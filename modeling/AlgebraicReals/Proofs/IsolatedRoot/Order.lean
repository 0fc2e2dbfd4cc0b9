import Mathlib
import AlgebraicReals.Proofs.IsolatedRoot.Bisection

set_option autoImplicit false

/-! # The order of isolated roots

Comparing a root with a rational number, and two roots with each other. For both
tests the same three things are shown: what they answer is the order of the real
numbers, equal numbers are recognised in the first state, and different numbers
are told apart as soon as the intervals are narrower than their distance.

For two roots the widths are halved by every two steps of the search, whichever of
the roots turns out to be rational on the way (`step_step_halves`). -/

namespace AlgebraicReals

/-- The order of two rationals is that of the real numbers they are. -/
theorem Rational.order_eq_cmp (x y : Rat) : Rational.order x y = cmp (x : ℝ) (y : ℝ) := by
  rcases lt_trichotomy x y with h | rfl | h
  · rw [order_of_lt h]
    exact ((cmp_eq_lt_iff _ _).mpr (Rat.cast_lt.mpr h)).symm
  · rw [order_self, cmp_self_eq_eq]
  · rw [order_of_gt h]
    exact ((cmp_eq_gt_iff _ _).mpr (Rat.cast_lt.mpr h)).symm

namespace IsolatedRoot

/-! ## Against a rational number -/

section Value

variable {r : IsolatedRoot} {α : ℝ} (h : r.Isolates α) (v : Rat)

include h

theorem compareValue?_eq_cmp {o : Ordering} {s : IsolatedRoot}
    (ho : compareValue? v r = some (o, s)) : o = cmp α v := by
  unfold compareValue? at ho
  split at ho
  · rename_i x hloc
    cases ho
    rw [Rational.order_eq_cmp, h.value_eq hloc]
  · rename_i l u hloc
    have htraps := h.traps hloc
    split at ho
    · rename_i hin
      obtain ⟨hlv, hvu⟩ := (Interval.contains_between l u v).mp hin
      split at ho
      · rename_i hroot
        have hv := htraps.eq_of_root ((SturmChain.isRoot_iff h.nonzero v).mp hroot) hlv hvu
        cases ho
        rw [hv, cmp_self_eq_eq]
      · cases ho
    · rename_i hout
      rw [Interval.contains_between, not_and_or, not_lt, not_lt] at hout
      cases ho
      split
      · rename_i hvl
        exact ((cmp_eq_gt_iff _ _).mpr ((Rat.cast_le.mpr hvl).trans_lt htraps.lower)).symm
      · rename_i hlv
        have huv : u ≤ v := hout.resolve_left hlv
        exact ((cmp_eq_lt_iff _ _).mpr (htraps.upper.trans_le (Rat.cast_le.mpr huv))).symm

/-- A rational number that is the root is recognised at once. -/
theorem compareValue?_of_eq (hv : α = v) : ∃ s, compareValue? v r = some (.eq, s) := by
  cases hloc : r.location with
  | exact x =>
      have hx : x = v := Rat.cast_injective ((h.value_eq hloc).trans hv)
      refine ⟨r, ?_⟩
      rw [compareValue?, hloc, hx]
      simp only [Rational.order_self]
  | between l u =>
      have hin : (Interval.between l u).contains v = true := by
        rw [Interval.contains_iff, ← hv]
        exact h.mem_between hloc
      have hroot : r.chain.isRoot v = true := by
        rw [SturmChain.isRoot_iff h.nonzero, ← hv]
        exact h.root
      refine ⟨r.collapse v, ?_⟩
      simp only [compareValue?, hloc, hin, hroot, if_true]

/-- An interval that is narrower than the distance decides. -/
theorem compareValue?_isSome (hw : (r.width : ℝ) ≤ |α - v|) :
    (compareValue? v r).isSome := by
  cases hloc : r.location with
  | exact x =>
      rw [compareValue?, hloc]
      rfl
  | between l u =>
      have hout : ¬(Interval.between l u).contains v = true := by
        intro hin
        have hlt := abs_sub_lt_width h hloc ((Interval.contains_iff _ v).mp hin)
        rw [abs_sub_comm] at hlt
        exact absurd hw (not_le.mpr hlt)
      simp only [compareValue?, hloc, if_neg hout]
      rfl

theorem compareValue_answer {cap : Nat} {o : Ordering}
    (ho : (r.compareValue v cap).answer = .ok o) : o = cmp α v :=
  search_answer_of_invariant (P := fun s : IsolatedRoot => s.Isolates α)
    (fun _ hs => refine_isolates hs) (fun _ _ _ hs hst => compareValue?_eq_cmp hs v hst) h ho

theorem compareValue_of_eq (hv : α = v) (cap : Nat) :
    ∃ s, r.compareValue v cap = ⟨.ok .eq, s, 0, 0⟩ ∧ Settles r s := by
  obtain ⟨s, hs⟩ := compareValue?_of_eq h v hv
  exact ⟨s, search_of_answer hs cap, settles_compareValue? hs⟩

theorem compareValue_ok {n cap : Nat} (hw : (r.width : ℝ) / 2 ^ n ≤ |α - v|) (hn : n ≤ cap) :
    ∃ o, (r.compareValue v cap).answer = .ok o := by
  refine search_ok_of_isSome hn (compareValue?_isSome (iterate_refine_tracks h n).1 v ?_)
  exact (cast_width_iterate_refine_le h n).trans hw

end Value

end IsolatedRoot

/-! ## Two roots -/

namespace Contest

open IsolatedRoot

/-- The two sides of a contest stand for `α` and `β`. -/
def Between (α β : ℝ) (s : Contest) : Prop :=
  s.left.Isolates α ∧ s.right.Isolates β

theorem Between.step {α β : ℝ} {s : Contest} (h : Between α β s) : Between α β s.step := by
  rcases s.step_cases with hs | hs
  · rw [hs]
    exact ⟨refine_isolates h.1, h.2⟩
  · rw [hs]
    exact ⟨h.1, refine_isolates h.2⟩

/-- Disjoint open intervals are ordered as their lower ends. -/
theorem cmp_of_disjoint {l u l' u' : Rat} {α β : ℝ} (hα : α ∈ Set.Ioo (l : ℝ) u)
    (hβ : β ∈ Set.Ioo (l' : ℝ) u') (hdisj : Disjoint (Set.Ioo (l : ℝ) u) (Set.Ioo (l' : ℝ) u')) :
    Rational.order l l' = cmp α β := by
  rw [Set.Ioo_disjoint_Ioo] at hdisj
  have hlu := hα.1.trans hα.2
  have hlu' := hβ.1.trans hβ.2
  -- the smaller of the upper ends is at most the larger of the lower ends
  rcases lt_trichotomy l l' with hl | rfl | hl
  · have hcast : (l : ℝ) < l' := Rat.cast_lt.mpr hl
    rw [Rational.order_of_lt hl, max_eq_right hcast.le] at *
    rcases min_le_iff.mp hdisj with hu | hu
    · exact ((cmp_eq_lt_iff _ _).mpr (hα.2.trans_le (hu.trans hβ.1.le))).symm
    · exact absurd hlu' (not_lt.mpr hu)
  · rw [max_self] at hdisj
    rcases min_le_iff.mp hdisj with hu | hu
    · exact absurd hlu (not_lt.mpr hu)
    · exact absurd hlu' (not_lt.mpr hu)
  · have hcast : (l' : ℝ) < l := Rat.cast_lt.mpr hl
    rw [Rational.order_of_gt hl, max_eq_left hcast.le] at *
    rcases min_le_iff.mp hdisj with hu | hu
    · exact absurd hlu (not_lt.mpr hu)
    · exact ((cmp_eq_gt_iff _ _).mpr (hβ.2.trans_le (hu.trans hα.1.le))).symm

theorem decide?_eq_cmp {α β : ℝ} {s t : Contest} (h : Between α β s) {o : Ordering}
    (ho : decide? s = some (o, t)) : o = cmp α β := by
  obtain ⟨hleft, hright⟩ := h
  unfold decide? at ho
  split at ho
  · rename_i v hv
    obtain ⟨⟨o', r⟩, hr, heq⟩ := Option.map_eq_some_iff.mp ho
    cases heq
    rw [compareValue?_eq_cmp hleft v hr, hright.value_eq hv]
  · rename_i v l u hv _
    obtain ⟨⟨o', r⟩, hr, heq⟩ := Option.map_eq_some_iff.mp ho
    cases heq
    rw [compareValue?_eq_cmp hright v hr, hleft.value_eq hv, cmp_swap]
  · rename_i l u l' u' hl hl'
    have hα := hleft.mem_between hl
    have hβ := hright.mem_between hl'
    split at ho
    · rename_i hdisj
      cases ho
      rw [Interval.toSet_between] at hα hβ
      rw [Interval.disjoint_iff, Interval.toSet_between, Interval.toSet_between] at hdisj
      exact cmp_of_disjoint hα hβ hdisj
    · cases ho

/-- Intervals that together are narrower than the distance are told apart. -/
theorem decide?_isSome {α β : ℝ} {s : Contest} (h : Between α β s)
    (hw : (s.left.width : ℝ) + s.right.width ≤ |α - β|) : (decide? s).isSome := by
  obtain ⟨hleft, hright⟩ := h
  have hwl : (0 : ℝ) ≤ s.left.width := Rat.cast_nonneg.mpr (width_nonneg hleft)
  have hwr : (0 : ℝ) ≤ s.right.width := Rat.cast_nonneg.mpr (width_nonneg hright)
  unfold decide?
  split
  · rename_i v hv
    rw [Option.isSome_map]
    rw [← hright.value_eq hv] at hw
    exact compareValue?_isSome hleft v (by linarith)
  · rename_i v l u hv _
    rw [Option.isSome_map]
    rw [← hleft.value_eq hv, abs_sub_comm] at hw
    exact compareValue?_isSome hright v (by linarith)
  · rename_i l u l' u' hl hl'
    have hdisj : (Interval.between l u).disjoint (.between l' u') = true := by
      rw [Interval.disjoint_iff, Set.disjoint_left]
      intro x hx hx'
      -- a common point would be near to both roots
      have hα := abs_sub_lt_width hleft hl hx
      have hβ := abs_sub_lt_width hright hl' hx'
      have htri : |α - β| ≤ |x - α| + |x - β| := by
        rw [abs_sub_comm x α]
        exact abs_sub_le α x β
      linarith
    rw [if_pos hdisj]
    rfl

/-! ### Two steps halve both widths -/

theorem width_of_isExact {r : IsolatedRoot} (h : r.isExact = true) : r.width = 0 := by
  cases hloc : r.location with
  | exact v => exact width_of_exact hloc
  | between l u =>
      rw [isExact, hloc] at h
      cases h

theorem width_step_le {α β : ℝ} {s : Contest} (h : Between α β s) :
    s.step.left.width ≤ s.left.width ∧ s.step.right.width ≤ s.right.width := by
  have hl := width_nonneg h.1
  have hr := width_nonneg h.2
  rcases s.step_cases with hs | hs
  · rw [hs]
    exact ⟨(width_refine_le h.1).trans (half_le_self hl), le_rfl⟩
  · rw [hs]
    exact ⟨le_rfl, (width_refine_le h.2).trans (half_le_self hr)⟩

theorem leftNext_step (s : Contest) : s.step.leftNext = !s.leftNext := by
  rcases s.step_cases with hs | hs
  · rw [hs]
  · rw [hs]

/-- **Two steps halve both widths**, if the first of them is for the left root. A
side that is known exactly has width `0` and leaves its turn to the other. -/
theorem step_step_halves {α β : ℝ} {s : Contest} (h : Between α β s) (hturn : s.leftNext = true) :
    s.step.step.left.width ≤ s.left.width / 2
      ∧ s.step.step.right.width ≤ s.right.width / 2 := by
  have hmono := width_step_le h
  have hmono' := width_step_le h.step
  by_cases hl : s.left.isExact = true
  · have hs : s.step = ⟨s.left, s.right.refine, !s.leftNext⟩ := if_neg (by simp [hl])
    have hright : s.step.right.width ≤ s.right.width / 2 := by
      rw [hs]
      exact width_refine_le h.2
    rw [width_of_isExact hl] at hmono ⊢
    exact ⟨by linarith [hmono.1, hmono'.1], hmono'.2.trans hright⟩
  · have hs : s.step = ⟨s.left.refine, s.right, !s.leftNext⟩ := if_pos (by simp [hl, hturn])
    have hleft : s.step.left.width ≤ s.left.width / 2 := by
      rw [hs]
      exact width_refine_le h.1
    refine ⟨hmono'.1.trans hleft, ?_⟩
    by_cases hr : s.right.isExact = true
    · rw [width_of_isExact hr] at hmono ⊢
      linarith [hmono.2, hmono'.2]
    · -- the second step is for the right root, whatever has become of the left one
      have hs' : s.step.step = ⟨s.step.left, s.step.right.refine, !s.step.leftNext⟩ := by
        refine if_neg ?_
        rw [hs]
        simp [hr, hturn]
      rw [hs']
      have hhalf := width_refine_le h.step.2
      linarith [hmono.2]

theorem iterate_step_halves {α β : ℝ} {s : Contest} (h : Between α β s)
    (hturn : s.leftNext = true) (n : Nat) :
    Between α β (step^[2 * n] s) ∧ (step^[2 * n] s).leftNext = true
      ∧ (step^[2 * n] s).left.width ≤ s.left.width / 2 ^ n
      ∧ (step^[2 * n] s).right.width ≤ s.right.width / 2 ^ n := by
  -- the turn is part of the statement: after two steps it is the left root's again
  induction n with
  | zero => simpa using ⟨h, hturn⟩
  | succ n ih =>
      obtain ⟨hb, ht, hl, hr⟩ := ih
      have hiter : step^[2 * (n + 1)] s = (step^[2 * n] s).step.step := by
        rw [Nat.mul_succ, Function.iterate_succ_apply', Function.iterate_succ_apply']
      obtain ⟨hl', hr'⟩ := step_step_halves hb ht
      rw [hiter, pow_succ, ← div_div, ← div_div]
      refine ⟨hb.step.step, ?_, ?_, ?_⟩
      · rw [leftNext_step, leftNext_step, ht]
        rfl
      · exact hl'.trans (div_le_div_of_nonneg_right hl zero_le_two)
      · exact hr'.trans (div_le_div_of_nonneg_right hr zero_le_two)

end Contest

namespace IsolatedRoot

section Compare

variable {a b : IsolatedRoot} {α β : ℝ} (ha : a.Isolates α) (hb : b.Isolates β)

include ha hb

/-- A common root where the intervals overlap is both roots. -/
theorem eq_of_sharesRoot (h : a.sharesRoot b = true) : α = β := by
  unfold sharesRoot at h
  rw [Bool.and_eq_true, Bool.and_eq_true, Poly.haveCommonRoot_iff ha.nonzero] at h
  obtain ⟨⟨hna, hnb⟩, x, hxa, hxb, hx⟩ := h
  rw [Interval.toSet_inter] at hx
  cases hla : a.location with
  | exact v => simp [isExact, hla, Location.isExact] at hna
  | between l u =>
      cases hlb : b.location with
      | exact v => simp [isExact, hlb, Location.isExact] at hnb
      | between l' u' =>
          rw [interval_of_between hla, interval_of_between hlb] at hx
          rw [← (ha.traps hla).only x hxa hx.1.1 hx.1.2, ← (hb.traps hlb).only x hxb hx.2.1 hx.2.2]

theorem sharesRoot_of_eq (h : α = β) (hea : a.isExact = false) (heb : b.isExact = false) :
    a.sharesRoot b = true := by
  subst h
  unfold sharesRoot
  rw [Bool.and_eq_true, Bool.and_eq_true, Poly.haveCommonRoot_iff ha.nonzero]
  refine ⟨⟨by rw [hea]; rfl, by rw [heb]; rfl⟩, α, ha.root, hb.root, ?_⟩
  rw [Interval.toSet_inter]
  exact ⟨ha.mem_interval, hb.mem_interval⟩

theorem compare_answer {cap : Nat} {o : Ordering} (ho : (a.compare b cap).answer = .ok o) :
    o = cmp α β := by
  unfold IsolatedRoot.compare at ho
  split at ho
  · rename_i hshare
    cases ho
    rw [eq_of_sharesRoot ha hb hshare, cmp_self_eq_eq]
  · exact search_answer_of_invariant (P := Contest.Between α β) (fun s hs => hs.step)
      (fun s o t hs hst => Contest.decide?_eq_cmp hs hst) ⟨ha, hb⟩ ho

/-- Equal roots are recognised at once. -/
theorem compare_of_eq (h : α = β) (cap : Nat) :
    ∃ s t, a.compare b cap = ⟨.ok .eq, (s, t), 0, 0⟩ ∧ Settles a s ∧ Settles b t := by
  unfold IsolatedRoot.compare
  split
  · exact ⟨a, b, rfl, .inl rfl, .inl rfl⟩
  · rename_i hshare
    -- one of the two is known exactly, so the other is compared with a rational
    cases hlb : b.location with
    | exact v =>
        obtain ⟨s, hs⟩ := compareValue?_of_eq ha v (h.trans (hb.value_eq hlb).symm)
        have hfirst : Contest.decide? ⟨a, b, true⟩ = some (.eq, ⟨s, b, true⟩) := by
          simp only [Contest.decide?, hlb, hs, Option.map_some]
        refine ⟨s, b, ?_, settles_compareValue? hs, .inl rfl⟩
        rw [search_of_answer hfirst]
        rfl
    | between l u =>
        cases hla : a.location with
        | exact v =>
            obtain ⟨t, ht⟩ := compareValue?_of_eq hb v (h.symm.trans (ha.value_eq hla).symm)
            have hfirst : Contest.decide? ⟨a, b, true⟩ = some (.eq, ⟨a, t, true⟩) := by
              simp only [Contest.decide?, hla, hlb, ht, Option.map_some]
              rfl
            refine ⟨a, t, ?_, .inl rfl, settles_compareValue? ht⟩
            rw [search_of_answer hfirst]
            rfl
        | between l' u' =>
            -- two open intervals around one number would have shown the common root
            refine absurd (sharesRoot_of_eq ha hb h ?_ ?_) hshare
            · rw [isExact, hla]
              rfl
            · rw [isExact, hlb]
              rfl

theorem compare_ok {n cap : Nat} (hw : ((a.width : ℝ) + b.width) / 2 ^ n ≤ |α - β|)
    (hn : 2 * n ≤ cap) : ∃ o, (a.compare b cap).answer = .ok o := by
  unfold IsolatedRoot.compare
  split
  · exact ⟨.eq, rfl⟩
  · obtain ⟨hbetween, -, hl, hr⟩ :=
      Contest.iterate_step_halves (s := ⟨a, b, true⟩) ⟨ha, hb⟩ rfl n
    refine search_ok_of_isSome hn (Contest.decide?_isSome hbetween (le_trans ?_ hw))
    have hl : ((Contest.step^[2 * n] ⟨a, b, true⟩).left.width : ℝ) ≤ (a.width : ℝ) / 2 ^ n := by
      exact_mod_cast hl
    have hr : ((Contest.step^[2 * n] ⟨a, b, true⟩).right.width : ℝ) ≤ (b.width : ℝ) / 2 ^ n := by
      exact_mod_cast hr
    rw [add_div]
    exact add_le_add hl hr

end Compare

end IsolatedRoot

end AlgebraicReals
