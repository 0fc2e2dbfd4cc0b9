import Mathlib
import AlgebraicReals.IsolatedRoot.Compare
import AlgebraicReals.Proofs.IsolatedRoot.Isolation
import AlgebraicReals.Proofs.Search

set_option autoImplicit false

/-! # What a step does to an isolated root

A query changes a root in two ways only. It bisects, which halves the interval or
meets the value (`refine_cases`); or its answer collapses the root to a rational
that was found to be a root inside the interval (`Settles`). This module says what
each query's test can do in these terms, and that both ways keep the real number
the root stands for and lead to a later state of the same root (`Follows`).

Queries are then covered at once: a property that both ways keep holds of whatever a
query leaves behind (`Persists`). -/

namespace AlgebraicReals

namespace IsolatedRoot

/-! ## Later states -/

/-- `s` is a later state of the root `r`: the same root of the same polynomial, with
the same mark, in a smaller interval, and a value once known stays known. -/
structure Follows (r s : IsolatedRoot) : Prop where
  chain : s.chain = r.chain
  isRoot : s.isRoot = r.isRoot
  interval : s.interval.toSet ⊆ r.interval.toSet
  value : ∀ v, r.value? = some v → s.value? = some v

theorem Follows.refl (r : IsolatedRoot) : Follows r r :=
  ⟨rfl, rfl, subset_rfl, fun _ h => h⟩

theorem Follows.trans {r s t : IsolatedRoot} (h : Follows r s) (h' : Follows s t) :
    Follows r t where
  chain := h'.chain.trans h.chain
  isRoot := h'.isRoot.trans h.isRoot
  interval := h'.interval.trans h.interval
  value v hv := h'.value v (h.value v hv)

/-! ## Bisection -/

/-- **All a bisection can do** to a root that is not known exactly: meet it in the
middle, or keep the half that holds it. -/
theorem refine_cases {r : IsolatedRoot} {α : ℝ} (h : r.Isolates α) {l u : Rat}
    (hloc : r.location = .between l u) :
    (r.refine.location = .exact (Rational.midpoint l u)
        ∧ ((Rational.midpoint l u : Rat) : ℝ) = α)
      ∨ (r.refine.location = .between l (Rational.midpoint l u)
        ∧ Traps r.poly l (Rational.midpoint l u) α)
      ∨ (r.refine.location = .between (Rational.midpoint l u) u
        ∧ Traps r.poly (Rational.midpoint l u) u α) := by
  have htraps := h.traps hloc
  have hcut : r.refine.location = r.chain.cut l (Rational.midpoint l u) u := by
    rw [refine, hloc]
  rw [hcut]
  exact SturmChain.cut_cases h.nonzero htraps (Rational.lt_midpoint htraps.lt)
    (Rational.midpoint_lt htraps.lt)

theorem refine_of_exact {r : IsolatedRoot} {v : Rat} (hloc : r.location = .exact v) :
    r.refine = r := by
  rw [refine, hloc]

theorem chain_refine (r : IsolatedRoot) : r.refine.chain = r.chain := by
  rw [refine]
  split <;> rfl

theorem isRoot_refine (r : IsolatedRoot) : r.refine.isRoot = r.isRoot := by
  rw [refine]
  split <;> rfl

theorem refine_isolates {r : IsolatedRoot} {α : ℝ} (h : r.Isolates α) :
    r.refine.Isolates α := by
  have hpoly : r.refine.poly = r.poly := congrArg SturmChain.source r.chain_refine
  refine ⟨hpoly ▸ h.nonzero, ?_⟩
  rw [hpoly]
  cases hloc : r.location with
  | exact v =>
      rw [refine_of_exact hloc]
      exact h.location
  | between l u =>
      have hlt := (h.traps hloc).lt
      have hzero := h.not_across_zero hloc
      -- a half of an interval that does not reach across `0` does not either
      rcases refine_cases h hloc with ⟨hr, hm⟩ | ⟨hr, ht⟩ | ⟨hr, ht⟩
      · rw [hr]
        exact ⟨hm, h.root⟩
      · rw [hr]
        exact ⟨ht, fun h0 => hzero ⟨h0.1, h0.2.trans (Rational.midpoint_lt hlt)⟩⟩
      · rw [hr]
        exact ⟨ht, fun h0 => hzero ⟨(Rational.lt_midpoint hlt).trans h0.1, h0.2⟩⟩

theorem refine_follows {r : IsolatedRoot} {α : ℝ} (h : r.Isolates α) : Follows r r.refine := by
  cases hloc : r.location with
  | exact v =>
      rw [refine_of_exact hloc]
      exact Follows.refl r
  | between l u =>
      have hlt := (h.traps hloc).lt
      have hm := Rat.cast_lt (K := ℝ).mpr (Rational.lt_midpoint hlt)
      have hm' := Rat.cast_lt (K := ℝ).mpr (Rational.midpoint_lt hlt)
      refine ⟨r.chain_refine, r.isRoot_refine, ?_, fun v hv => ?_⟩
      · rw [interval_of_between hloc]
        rcases refine_cases h hloc with ⟨hr, -⟩ | ⟨hr, -⟩ | ⟨hr, -⟩
        · rw [interval_of_exact hr]
          exact Set.singleton_subset_iff.mpr ⟨hm, hm'⟩
        · rw [interval_of_between hr]
          exact Set.Ioo_subset_Ioo_right hm'.le
        · rw [interval_of_between hr]
          exact Set.Ioo_subset_Ioo_left hm.le
      · rw [value?, hloc] at hv
        cases hv

/-! ## Answers -/

/-- The state an answer leaves: the same one, or the root collapsed to a rational
that was found to be a root between its bounds. -/
def Settles (r s : IsolatedRoot) : Prop :=
  s = r ∨ ∃ l u v, r.location = .between l u ∧ l < v ∧ v < u ∧ r.chain.isRoot v = true
    ∧ s = r.collapse v

theorem Settles.isolates {r s : IsolatedRoot} {α : ℝ} (h : Settles r s) (hr : r.Isolates α) :
    s.Isolates α := by
  rcases h with rfl | ⟨l, u, v, hloc, hlv, hvu, hroot, rfl⟩
  · exact hr
  · refine ⟨hr.nonzero, ?_, hr.root⟩
    exact (hr.traps hloc).eq_of_root ((SturmChain.isRoot_iff hr.nonzero v).mp hroot) hlv hvu

theorem Settles.follows {r s : IsolatedRoot} (h : Settles r s) : Follows r s := by
  rcases h with rfl | ⟨l, u, v, hloc, hlv, hvu, -, rfl⟩
  · exact Follows.refl _
  · refine ⟨rfl, rfl, ?_, fun w hw => ?_⟩
    · rw [interval_of_between hloc, interval_of_exact (v := v) rfl]
      exact Set.singleton_subset_iff.mpr ⟨Rat.cast_lt.mpr hlv, Rat.cast_lt.mpr hvu⟩
    · rw [value?, hloc] at hw
      cases hw

/-- An answer is no bisection. -/
theorem Settles.refinements_eq {r s : IsolatedRoot} (h : Settles r s) :
    s.refinements = r.refinements := by
  rcases h with rfl | ⟨_, _, _, _, _, _, _, rfl⟩
  · rfl
  · rfl

theorem settles_refined? {stop : Interval → Bool} {r s : IsolatedRoot} {a : Refinement}
    (h : refined? stop r = some (a, s)) : Settles r s := by
  unfold refined? at h
  split at h
  · cases h
    exact .inl rfl
  split at h
  · cases h
    exact .inl rfl
  · cases h

theorem settles_signOf? {ev : Evaluator} {q : Poly} {r s : IsolatedRoot} {a : Sign}
    (h : signOf? ev q r = some (a, s)) : Settles r s := by
  unfold signOf? at h
  split at h
  · cases h
    exact .inl rfl
  · simp only at h
    split at h
    · cases h
    · cases h
      exact .inl rfl

theorem settles_branchingPoint? {r s : IsolatedRoot} {α : ℝ} (hr : r.Isolates α) {a : Rat}
    (h : branchingPoint? r = some (a, s)) : Settles r s := by
  unfold branchingPoint? at h
  split at h
  · cases h
    exact .inl rfl
  · rename_i l u hloc
    have hlt := (hr.traps hloc).lt
    simp only at h
    split at h
    · rename_i hroot
      cases h
      exact .inr ⟨l, u, _, hloc, Rational.lt_midpoint hlt, Rational.midpoint_lt hlt, hroot, rfl⟩
    split at h
    · cases h
    · cases h
      exact .inl rfl

theorem settles_containedIn? {query : Interval} {r s : IsolatedRoot} {a : Bool}
    (h : containedIn? query r = some (a, s)) : Settles r s := by
  unfold containedIn? at h
  split at h
  · cases h
    exact .inl rfl
  · rename_i l u hloc
    split at h
    · cases h
      exact .inl rfl
    simp only at h
    split at h
    · -- a bound of the query that is the root
      rename_i e he
      have hfound := List.find?_some he
      obtain ⟨hin, hroot⟩ := Bool.and_eq_true _ _ ▸ hfound
      obtain ⟨hle, heu⟩ := (Interval.contains_between l u e).mp hin
      cases h
      exact .inr ⟨l, u, e, hloc, hle, heu, hroot, rfl⟩
    split at h
    · cases h
      exact .inl rfl
    split at h
    · cases h
      exact .inl rfl
    · cases h

theorem settles_compareValue? {v : Rat} {r s : IsolatedRoot} {a : Ordering}
    (h : compareValue? v r = some (a, s)) : Settles r s := by
  unfold compareValue? at h
  split at h
  · cases h
    exact .inl rfl
  · rename_i l u hloc
    split at h
    · rename_i hin
      obtain ⟨hlv, hvu⟩ := (Interval.contains_between l u v).mp hin
      split at h
      · rename_i hroot
        cases h
        exact .inr ⟨l, u, v, hloc, hlv, hvu, hroot, rfl⟩
      · cases h
    · cases h
      exact .inl rfl

/-! ## Searches -/

/-- `s` still stands for `α` and is a later state of `r`. -/
def Tracks (r : IsolatedRoot) (α : ℝ) (s : IsolatedRoot) : Prop :=
  s.Isolates α ∧ Follows r s

theorem Isolates.tracks {r : IsolatedRoot} {α : ℝ} (h : r.Isolates α) : Tracks r α r :=
  ⟨h, Follows.refl r⟩

theorem Tracks.refine {r s : IsolatedRoot} {α : ℝ} (h : Tracks r α s) : Tracks r α s.refine :=
  ⟨refine_isolates h.1, h.2.trans (refine_follows h.1)⟩

theorem Tracks.settles {r s t : IsolatedRoot} {α : ℝ} (h : Tracks r α s) (hst : Settles s t) :
    Tracks r α t :=
  ⟨hst.isolates h.1, h.2.trans hst.follows⟩

/-- The property `P` of roots that stand for `α` is kept by bisections and by answers. -/
structure Persists (α : ℝ) (P : IsolatedRoot → Prop) : Prop where
  isolates : ∀ s, P s → s.Isolates α
  refine : ∀ s, P s → P s.refine
  settles : ∀ s t, P s → Settles s t → P t

theorem persists_tracks (r : IsolatedRoot) (α : ℝ) : Persists α (Tracks r α) where
  isolates _ hs := hs.1
  refine _ hs := hs.refine
  settles _ _ hs hst := hs.settles hst

/-- What persists holds after a query whose answers only settle the root, whether it
succeeds or fails. -/
theorem Persists.search {β : Type} {answer? : IsolatedRoot → Option (β × IsolatedRoot)}
    {P : IsolatedRoot → Prop} {α : ℝ} (hP : Persists α P) {r : IsolatedRoot} (hr : P r)
    (hanswer : ∀ s a t, s.Isolates α → answer? s = some (a, t) → Settles s t) (cap : Nat) :
    P (search answer? IsolatedRoot.refine cap r).state := by
  refine search_state_of_invariant hP.refine ?_ hr cap
  intro s a t hs hst
  exact hP.settles s t hs (hanswer s a t (hP.isolates s hs) hst)

end IsolatedRoot

/-! ## Comparing two roots -/

namespace Contest

open IsolatedRoot

/-- An answer settles both sides. -/
theorem settles_decide? {s t : Contest} {a : Ordering} (h : decide? s = some (a, t)) :
    Settles s.left t.left ∧ Settles s.right t.right := by
  unfold decide? at h
  split at h
  · obtain ⟨⟨o, r⟩, hr, heq⟩ := Option.map_eq_some_iff.mp h
    cases heq
    exact ⟨settles_compareValue? hr, .inl rfl⟩
  · obtain ⟨⟨o, r⟩, hr, heq⟩ := Option.map_eq_some_iff.mp h
    cases heq
    exact ⟨.inl rfl, settles_compareValue? hr⟩
  · split at h
    · cases h
      exact ⟨.inl rfl, .inl rfl⟩
    · cases h

/-- A step bisects one of the two, and the turn passes on. -/
theorem step_cases (s : Contest) :
    s.step = ⟨s.left.refine, s.right, !s.leftNext⟩
      ∨ s.step = ⟨s.left, s.right.refine, !s.leftNext⟩ := by
  by_cases h : (!s.left.isExact && (s.right.isExact || s.leftNext)) = true
  · exact .inl (if_pos h)
  · exact .inr (if_neg h)

end Contest

namespace IsolatedRoot

section

variable {P : IsolatedRoot → Prop} {α : ℝ} (hP : Persists α P)

include hP

theorem Persists.compare_left {a : IsolatedRoot} (ha : P a) (b : IsolatedRoot) (cap : Nat) :
    P (a.compare b cap).state.1 := by
  unfold IsolatedRoot.compare
  split
  · exact ha
  · refine search_state_of_invariant (P := fun s : Contest => P s.left) ?_ ?_ ha cap
    · intro s hs
      rcases s.step_cases with h | h
      · rw [h]
        exact hP.refine s.left hs
      · rw [h]
        exact hs
    · intro s o t hs hst
      exact hP.settles s.left t.left hs (Contest.settles_decide? hst).1

theorem Persists.compare_right {b : IsolatedRoot} (hb : P b) (a : IsolatedRoot) (cap : Nat) :
    P (a.compare b cap).state.2 := by
  unfold IsolatedRoot.compare
  split
  · exact hb
  · refine search_state_of_invariant (P := fun s : Contest => P s.right) ?_ ?_ hb cap
    · intro s hs
      rcases s.step_cases with h | h
      · rw [h]
        exact hs
      · rw [h]
        exact hP.refine s.right hs
    · intro s o t hs hst
      exact hP.settles s.right t.right hs (Contest.settles_decide? hst).2

end

end IsolatedRoot

end AlgebraicReals
