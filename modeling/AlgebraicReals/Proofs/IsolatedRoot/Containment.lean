import Mathlib
import AlgebraicReals.Proofs.IsolatedRoot.Order
import AlgebraicReals.Proofs.Number.Reachable

set_option autoImplicit false

/-! # Membership and order decided by bisection

Whether a root lies in an interval, and how it compares with a rational number. A bound of
the interval that lies in the open interval around the root keeps the two from being
separated, however often that is bisected. The test therefore first looks for a bound that
is the root. A bound that is not is left behind once the interval around the root is
narrower than its distance, and an open interval without any bound of the query in it lies
on one side of each of them (`Interval.includes_or_disjoint`). -/

namespace AlgebraicReals

/-! ## Open intervals without a bound inside -/

section

variable {l u : Rat}

theorem Endpoint.Ioo_subset_or_disjoint_above {e : Endpoint}
    (h : ∀ v, e.value? = some v → ¬(l < v ∧ v < u)) :
    Set.Ioo (l : ℝ) u ⊆ e.above ∨ Disjoint (Set.Ioo (l : ℝ) u) e.above := by
  rcases e with _ | ⟨v, i⟩
  · exact .inl (Set.subset_univ _)
  by_cases hlv : l < v
  · have huv : u ≤ v := not_lt.mp fun hvu => h v rfl ⟨hlv, hvu⟩
    refine .inr (Set.disjoint_left.mpr fun x hx hxv => ?_)
    have hvx : (v : ℝ) ≤ x := le_of_mem_above hxv
    exact absurd (hx.2.trans_le (Rat.cast_le.mpr huv)) hvx.not_gt
  · refine .inl fun x hx => mem_above_finite.mpr (.inl ?_)
    exact (Rat.cast_le.mpr (not_lt.mp hlv)).trans_lt hx.1

theorem Endpoint.Ioo_subset_or_disjoint_below {e : Endpoint}
    (h : ∀ v, e.value? = some v → ¬(l < v ∧ v < u)) :
    Set.Ioo (l : ℝ) u ⊆ e.below ∨ Disjoint (Set.Ioo (l : ℝ) u) e.below := by
  rcases e with _ | ⟨v, i⟩
  · exact .inl (Set.subset_univ _)
  by_cases hvu : v < u
  · have hvl : v ≤ l := not_lt.mp fun hlv => h v rfl ⟨hlv, hvu⟩
    refine .inr (Set.disjoint_left.mpr fun x hx hxv => ?_)
    have hxv' : x ≤ (v : ℝ) := le_of_mem_below hxv
    exact absurd ((Rat.cast_le.mpr hvl).trans_lt hx.1) hxv'.not_gt
  · refine .inl fun x hx => mem_below_finite.mpr (.inl ?_)
    exact hx.2.trans_le (Rat.cast_le.mpr (not_lt.mp hvu))

theorem Interval.includes_or_disjoint {query : Interval}
    (h : ∀ e ∈ query.bounds, ¬(l < e ∧ e < u)) :
    query.includes (between l u) = true ∨ (between l u).disjoint query = true := by
  rw [includes_iff, disjoint_iff, toSet_between]
  have hlower := Endpoint.Ioo_subset_or_disjoint_above (e := query.lower) fun v hv =>
    h v (List.mem_append_left _ (by simp [hv]))
  have hupper := Endpoint.Ioo_subset_or_disjoint_below (e := query.upper) fun v hv =>
    h v (List.mem_append_right _ (by simp [hv]))
  rcases hlower with hlower | hlower
  · rcases hupper with hupper | hupper
    · exact .inl (Set.subset_inter hlower hupper)
    · exact .inr (hupper.mono_right Set.inter_subset_right)
  · exact .inr (hlower.mono_right Set.inter_subset_left)

end

/-! ## Membership -/

namespace IsolatedRoot

section

variable {r : IsolatedRoot} {α : ℝ} (h : r.Isolates α) (query : Interval)

include h

theorem containedIn?_iff {b : Bool} {s : IsolatedRoot} (hb : containedIn? query r = some (b, s)) :
    b = true ↔ α ∈ query.toSet := by
  unfold containedIn? at hb
  split at hb
  · rename_i v hloc
    cases hb
    rw [Interval.contains_iff, h.value_eq hloc]
  rename_i l u hloc
  have hmem := h.mem_between hloc
  split at hb
  · rename_i hempty
    cases hb
    simp [(Interval.isEmpty_iff query).mp hempty]
  simp only at hb
  split at hb
  · rename_i e he
    have hfound := List.find?_some he
    obtain ⟨hin, hroot⟩ := Bool.and_eq_true _ _ ▸ hfound
    obtain ⟨hle, heu⟩ := (Interval.contains_between l u e).mp hin
    have heα := (h.traps hloc).eq_of_root ((SturmChain.isRoot_iff h.nonzero e).mp hroot) hle heu
    cases hb
    rw [Interval.contains_iff, heα]
  split at hb
  · rename_i hincl
    cases hb
    exact iff_of_true rfl ((Interval.includes_iff _ _).mp hincl hmem)
  split at hb
  · rename_i hdisj
    cases hb
    refine iff_of_false Bool.false_ne_true fun hα => ?_
    exact Set.disjoint_left.mp ((Interval.disjoint_iff _ _).mp hdisj) hmem hα
  · cases hb

/-- A bound that is the root is found at once. -/
theorem containedIn?_isSome_of_bound {e : Rat} (he : e ∈ query.bounds) (hα : α = e) :
    (containedIn? query r).isSome := by
  cases hloc : r.location with
  | exact v =>
      rw [containedIn?, hloc]
      rfl
  | between l u =>
      have hin : (Interval.between l u).contains e = true := by
        rw [Interval.contains_iff, ← hα]
        exact h.mem_between hloc
      have hroot : r.chain.isRoot e = true := by
        rw [SturmChain.isRoot_iff h.nonzero, ← hα]
        exact h.root
      have hfound : (query.bounds.find? fun e =>
          (Interval.between l u).contains e && r.chain.isRoot e).isSome :=
        List.find?_isSome.mpr ⟨e, he, by rw [hin, hroot]; rfl⟩
      obtain ⟨e', he'⟩ := Option.isSome_iff_exists.mp hfound
      simp only [containedIn?, hloc, he']
      split
      · rfl
      · rfl

/-- An interval that is narrower than the distance to every bound decides. -/
theorem containedIn?_isSome (hw : ∀ e ∈ query.bounds, (r.width : ℝ) ≤ |α - e|) :
    (containedIn? query r).isSome := by
  cases hloc : r.location with
  | exact v =>
      rw [containedIn?, hloc]
      rfl
  | between l u =>
      have hout : ∀ e ∈ query.bounds, ¬(l < e ∧ e < u) := by
        intro e he hin
        have hlt := abs_sub_lt_width h hloc
          ((Interval.contains_iff _ e).mp ((Interval.contains_between l u e).mpr hin))
        rw [abs_sub_comm] at hlt
        exact absurd (hw e he) (not_le.mpr hlt)
      unfold containedIn?
      rw [hloc]
      simp only
      split
      · rfl
      split
      · rfl
      -- no bound is found to be the root, but none is in the way either
      rcases Interval.includes_or_disjoint hout with hincl | hdisj
      · rw [if_pos hincl]
        rfl
      · rw [if_pos hdisj]
        split
        · rfl
        · rfl

theorem containedIn_answer {cap : Nat} {b : Bool}
    (hb : (r.containedIn query cap).answer = .ok b) : b = true ↔ α ∈ query.toSet :=
  search_answer_of_invariant (P := fun s : IsolatedRoot => s.Isolates α)
    (fun _ hs => refine_isolates hs) (fun _ _ _ hs hst => containedIn?_iff hs query hst) h hb

theorem containedIn_of_bound {e : Rat} (he : e ∈ query.bounds) (hα : α = e) (cap : Nat) :
    ∃ b s, r.containedIn query cap = .now b s ∧ Settles r s := by
  obtain ⟨⟨b, s⟩, hs⟩ :=
    Option.isSome_iff_exists.mp (containedIn?_isSome_of_bound h query he hα)
  exact ⟨b, s, search_of_answer hs cap, settles_containedIn? hs⟩

theorem containedIn_ok {n cap : Nat}
    (hw : ∀ e ∈ query.bounds, (r.width : ℝ) / 2 ^ n ≤ |α - e|) (hn : n ≤ cap) :
    ∃ b, (r.containedIn query cap).answer = .ok b := by
  refine search_ok_of_isSome hn
    (containedIn?_isSome (iterate_refine_tracks h n).1 query fun e he => ?_)
  exact (cast_width_iterate_refine_le h n).trans (hw e he)

end

/-- **Membership and order are decided against rational numbers.** Let a root stand for
`α`, with any history, and let any cap be given. For every interval, whatever its bounds
are, an answer says whether `α` is in it; if `α` is one of the bounds, the answer comes
without any bisection; and if `n` bisections bring the width of the root within the
distance of `α` from every bound that is a number, a cap of `n` is enough for an answer.
The same holds for the order of `α` and a rational number, in place of the bounds. -/
theorem membership_and_order_decided {r : IsolatedRoot} {α : ℝ}
    (h : (Number.root r).Reaches α) (cap : Nat) :
    (∀ query : Interval,
      (∀ b, (r.containedIn query cap).answer = .ok b → (b = true ↔ α ∈ query.toSet))
        ∧ (∀ e ∈ query.bounds, α = e → ∃ b, (r.containedIn query cap).answer = .ok b
          ∧ (r.containedIn query cap).steps = 0
          ∧ (r.containedIn query cap).state.refinements = r.refinements)
        ∧ ∀ n ≤ cap, (∀ e ∈ query.bounds, (r.width : ℝ) / 2 ^ n ≤ |α - e|) →
          ∃ b, (r.containedIn query cap).answer = .ok b)
      ∧ ∀ v : Rat,
        (∀ o, (r.compareValue v cap).answer = .ok o → o = cmp α v)
          ∧ (α = v → (r.compareValue v cap).answer = .ok .eq
            ∧ (r.compareValue v cap).steps = 0
            ∧ (r.compareValue v cap).state.refinements = r.refinements)
          ∧ ∀ n ≤ cap, (r.width : ℝ) / 2 ^ n ≤ |α - v| →
            ∃ o, (r.compareValue v cap).answer = .ok o := by
  have hr : r.Isolates α := h.denotes
  refine ⟨fun query => ⟨fun b hb => ?_, fun e he hα => ?_, fun n hn hw => ?_⟩,
    fun v => ⟨fun o ho => ?_, fun hα => ?_, fun n hn hw => ?_⟩⟩
  · exact containedIn_answer hr query hb
  · obtain ⟨b, s, hnow, hs⟩ := containedIn_of_bound hr query he hα cap
    rw [hnow]
    exact ⟨b, rfl, rfl, hs.refinements_eq⟩
  · exact containedIn_ok hr query hw hn
  · exact compareValue_answer hr v ho
  · obtain ⟨s, hnow, hs⟩ := compareValue_of_eq hr v hα cap
    rw [hnow]
    exact ⟨rfl, rfl, hs.refinements_eq⟩
  · exact compareValue_ok hr v hw hn

/-- The root of `x² - 2` above `0` is found to be less than `3/2`, from which its distance
is at least `1/16`. -/
theorem membership_and_order_decided_sqrt_two :
    ∃ r : IsolatedRoot, r.poly = .ofCoeffs [-2, 0, 1] ∧ (Number.root r).Reaches √2
      ∧ ∃ cap, (r.containedIn ⟨.infinite, .finite (3 / 2) false⟩ cap).answer = .ok true
        ∧ (r.compareValue (3 / 2) cap).answer = .ok .lt := by
  obtain ⟨a, hpoly, ha⟩ := Number.exists_reaches_sqrt_two
  cases a with
  | rational v mark => cases hpoly
  | root r =>
      obtain ⟨n, hn⟩ := pow_unbounded_of_one_lt (16 * (r.width : ℝ)) one_lt_two
      have hsqrt : √2 ≤ 23 / 16 := Real.sqrt_le_iff.mpr (by norm_num)
      have hcast : ((3 / 2 : Rat) : ℝ) = 3 / 2 := by norm_num
      have hlt : √2 < ((3 / 2 : Rat) : ℝ) := by linarith
      have hw : (r.width : ℝ) / 2 ^ n ≤ |√2 - ((3 / 2 : Rat) : ℝ)| := by
        rw [abs_sub_comm, abs_of_pos (sub_pos.mpr hlt), div_le_iff₀ (by positivity)]
        calc (r.width : ℝ) ≤ 1 / 16 * 2 ^ n := by linarith
          _ ≤ (((3 / 2 : Rat) : ℝ) - √2) * 2 ^ n := by gcongr; linarith
      obtain ⟨hmember, horder⟩ := membership_and_order_decided ha n
      obtain ⟨hiff, -, hok⟩ := hmember ⟨.infinite, .finite (3 / 2) false⟩
      obtain ⟨hcmp, -, hok'⟩ := horder (3 / 2)
      obtain ⟨b, hb⟩ := hok n le_rfl (List.forall_mem_singleton.mpr hw)
      obtain ⟨o, ho⟩ := hok' n le_rfl hw
      have hbtrue : b = true := (hiff b hb).mpr ⟨trivial, hlt⟩
      have holt : o = .lt := (hcmp o ho).trans ((cmp_eq_lt_iff _ _).mpr hlt)
      subst hbtrue holt
      exact ⟨r, Option.some.inj hpoly, ha, n, hb, ho⟩

end IsolatedRoot

end AlgebraicReals
