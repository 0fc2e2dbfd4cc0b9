import Mathlib
import AlgebraicReals.Proofs.IsolatedRoot.Loops
import AlgebraicReals.Proofs.Number.Reachable

set_option autoImplicit false

/-! # The cap on bisections

Every query is given a cap on the bisections it may make, and every root counts the
bisections made on it. `Outcome.KeepsTo` says how the two are related: the counter grows
by the bisections that the query reports, these are within the cap, and the only way to
fail is to have made all of them.

For a search this comes down to its single step (`search_keepsTo`): a state without an
answer is one in which the step bisects. A root that is known exactly is not bisected any
more, so each test has to answer for such a root. In a comparison of two roots one may be
known exactly and the other not, and the turn has to go to the right one
(`Contest.bisections_step`).

For a comparison as two loops, one after the other, the counts of the two have to be put
together: the second loop is given what is left of the cap, and its error is corrected by
what the first one has used (`Outcome.KeepsTo.after`, `IsolatedRoot.compareFrom_keepsTo`). -/

namespace AlgebraicReals

/-- A query that was asked in the state `s` has kept to its cap. -/
structure Outcome.KeepsTo {σ α : Type} (count : σ → Nat) (cap : Nat) (s : σ)
    (o : Outcome σ α) : Prop where
  /-- The counter has grown by the bisections made. -/
  counted : count o.state = count s + o.steps
  /-- The cap allows for them. -/
  within : o.steps ≤ cap
  /-- A query fails with all bisections made, and says how many these were. -/
  error : ∀ e, o.answer = .error e → e = .notConverged cap ∧ o.steps = cap

namespace Outcome

section

variable {σ τ α β : Type} {count : σ → Nat} {cap : Nat} {s : σ}

theorem now_keepsTo_of_eq (a : α) {t : σ} (ht : count t = count s) :
    (now a t).KeepsTo count cap s := by
  refine ⟨ht, Nat.zero_le cap, fun e he => ?_⟩
  cases he

theorem now_keepsTo (a : α) : (now a s).KeepsTo count cap s :=
  now_keepsTo_of_eq a rfl

theorem KeepsTo.readOff {o : Outcome σ α} (h : o.KeepsTo count cap s) (f : α → σ → β) :
    (o.readOff f).KeepsTo count cap s := by
  refine ⟨h.counted, h.within, fun e he => h.error e ?_⟩
  cases ho : o.answer with
  | error e' =>
      rw [Outcome.readOff, ho] at he
      cases he
      rfl
  | ok a =>
      rw [Outcome.readOff, ho] at he
      cases he

theorem KeepsTo.map {o : Outcome σ α} (h : o.KeepsTo count cap s) (f : α → β) :
    (o.map f).KeepsTo count cap s :=
  h.readOff fun a _ => f a

/-- **Handing over the rest of a cap.** A loop that is entered with `done` bisections made,
and is given what is left of the cap, keeps the whole to the cap; and when it fails, the
error with the bisections counted in says the cap. -/
theorem KeepsTo.after {o : Outcome σ α} {done : Nat} {t : σ}
    (h : o.KeepsTo count (cap - done) t) (hle : done ≤ cap) (ht : count t = count s + done) :
    (o.after done).KeepsTo count cap s := by
  refine ⟨?_, ?_, fun e he => ?_⟩
  · show count o.state = count s + (done + o.steps)
    rw [h.counted, ht, Nat.add_assoc]
  · show done + o.steps ≤ cap
    have hwithin := h.within
    omega
  · cases ho : o.answer with
    | ok a =>
        rw [Outcome.after, ho] at he
        cases he
    | error e' =>
        obtain ⟨rfl, hsteps⟩ := h.error e' ho
        rw [Outcome.after, ho] at he
        cases he
        refine ⟨congrArg AlgebraicError.notConverged (Nat.add_sub_cancel' hle), ?_⟩
        show done + o.steps = cap
        rw [hsteps, Nat.add_sub_cancel' hle]

/-- A part of the state that the query leaves alone has its own `k` bisections. -/
theorem KeepsTo.mapState_add {o : Outcome σ α} (h : o.KeepsTo count cap s) (f : σ → τ)
    {count' : τ → Nat} {k : Nat} (hf : ∀ t, count' (f t) = count t + k) :
    (o.mapState f).KeepsTo count' cap (f s) := by
  refine ⟨?_, h.within, h.error⟩
  show count' (f o.state) = count' (f s) + o.steps
  rw [hf, hf, h.counted, Nat.add_right_comm]

theorem KeepsTo.mapState {o : Outcome σ α} (h : o.KeepsTo count cap s) (f : σ → τ)
    {count' : τ → Nat} (hf : ∀ t, count' (f t) = count t) :
    (o.mapState f).KeepsTo count' cap (f s) :=
  h.mapState_add f (k := 0) hf

end

end Outcome

/-! ## Searches -/

section

variable {σ α : Type} {answer? : σ → Option (α × σ)} {step : σ → σ} {count : σ → Nat}
  (hstep : ∀ s, answer? s = none → count (step s) = count s + 1)

include hstep

theorem count_iterate {s : σ} {k : Nat} (hnone : ∀ j < k, answer? (step^[j] s) = none) :
    count (step^[k] s) = count s + k := by
  induction k with
  | zero => rfl
  | succ k ih =>
      have hk := ih fun j hj => hnone j (by omega)
      rw [Function.iterate_succ_apply', hstep _ (hnone k (by omega)), hk]
      omega

theorem search_keepsTo (hanswer : ∀ s a t, answer? s = some (a, t) → count t = count s)
    (cap : Nat) (s : σ) : (search answer? step cap s).KeepsTo count cap s := by
  rcases search_cases answer? step cap s with ⟨k, hk, a, t, hnone, hsome, hres⟩ | ⟨hnone, hres⟩
  · rw [hres]
    refine ⟨?_, hk, fun e he => ?_⟩
    · show count t = count s + k
      rw [hanswer _ _ _ hsome, count_iterate hstep hnone]
    · cases he
  · rw [hres]
    refine ⟨count_iterate hstep fun j hj => hnone j (by omega), le_rfl, fun e he => ?_⟩
    cases he
    exact ⟨rfl, rfl⟩

end

/-! ## Queries about one root -/

namespace IsolatedRoot

theorem refinements_refine {r : IsolatedRoot} {l u : Rat} (hloc : r.location = .between l u) :
    r.refine.refinements = r.refinements + 1 := by
  rw [refine, hloc]

/-- A search by bisection keeps to its cap if its test answers for roots that are known
exactly, and if no answer counts as a bisection. -/
theorem search_refine_keepsTo {α : Type} {answer? : IsolatedRoot → Option (α × IsolatedRoot)}
    (hexact : ∀ r v, r.location = .exact v → (answer? r).isSome)
    (hanswer : ∀ r a s, answer? r = some (a, s) → s.refinements = r.refinements)
    (cap : Nat) (r : IsolatedRoot) :
    (search answer? IsolatedRoot.refine cap r).KeepsTo refinements cap r := by
  refine search_keepsTo (fun s hs => ?_) hanswer cap r
  cases hloc : s.location with
  | exact v =>
      have hsome := hexact s v hloc
      rw [hs] at hsome
      cases hsome
  | between l u => exact refinements_refine hloc

section

variable (r : IsolatedRoot) (cap : Nat)

theorem refineUntil_keepsTo (stop : Interval → Bool) :
    (r.refineUntil stop cap).KeepsTo refinements cap r := by
  refine search_refine_keepsTo (fun s v hloc => ?_) (fun s a t hst => ?_) cap r
  · rw [refined?, isExact, hloc]
    rfl
  · exact (settles_refined? hst).refinements_eq

theorem signOf_keepsTo (ev : Evaluator) (q : Poly) :
    (r.signOf ev q cap).KeepsTo refinements cap r := by
  have hsearch : (search (signOf? ev q) IsolatedRoot.refine cap r).KeepsTo refinements cap r := by
    refine search_refine_keepsTo (fun s v hloc => ?_) (fun s a t hst => ?_) cap r
    · rw [signOf?, hloc]
      rfl
    · exact (settles_signOf? hst).refinements_eq
  unfold signOf
  split
  · exact Outcome.now_keepsTo _
  split
  · exact Outcome.now_keepsTo _
  split
  · exact Outcome.now_keepsTo _
  · exact ⟨hsearch.counted, hsearch.within, hsearch.error⟩

/-- An answer is the value, a midpoint that the root collapses to, or a midpoint. -/
theorem refinements_of_branchingPoint? {s t : IsolatedRoot} {a : Rat}
    (h : branchingPoint? s = some (a, t)) : t.refinements = s.refinements := by
  unfold branchingPoint? at h
  split at h
  · cases h
    rfl
  · simp only at h
    split_ifs at h
    · cases h
      rfl
    · cases h
      rfl

theorem branchingPoint_keepsTo : (r.branchingPoint cap).KeepsTo refinements cap r := by
  refine search_refine_keepsTo (fun s v hloc => ?_) (fun s a t hst => ?_) cap r
  · rw [branchingPoint?, hloc]
    rfl
  · exact refinements_of_branchingPoint? hst

theorem containedIn_keepsTo (query : Interval) :
    (r.containedIn query cap).KeepsTo refinements cap r := by
  refine search_refine_keepsTo (fun s v hloc => ?_) (fun s a t hst => ?_) cap r
  · rw [containedIn?, hloc]
    rfl
  · exact (settles_containedIn? hst).refinements_eq

theorem compareValue?_isSome_of_exact (v : Rat) {s : IsolatedRoot} {x : Rat}
    (hloc : s.location = .exact x) : (compareValue? v s).isSome := by
  rw [compareValue?, hloc]
  rfl

theorem compareValue_keepsTo (v : Rat) : (r.compareValue v cap).KeepsTo refinements cap r := by
  refine search_refine_keepsTo (fun s x hloc => ?_) (fun s a t hst => ?_) cap r
  · exact compareValue?_isSome_of_exact v hloc
  · exact (settles_compareValue? hst).refinements_eq

/-! ### The loops

Here the cap is the one of `refineUntil`, as the looks before it bisect nothing. -/

theorem compareValueOnce_keepsTo (v : Rat) :
    (r.compareValueOnce v cap).KeepsTo refinements cap r := by
  unfold compareValueOnce
  split
  · exact Outcome.now_keepsTo _
  split
  · exact Outcome.now_keepsTo_of_eq _ rfl
  · exact (r.refineUntil_keepsTo cap _).readOff _

theorem containedInOnce_keepsTo (query : Interval) :
    (r.containedInOnce query cap).KeepsTo refinements cap r := by
  unfold containedInOnce
  split
  · exact Outcome.now_keepsTo _
  split
  · exact Outcome.now_keepsTo _
  split
  · exact Outcome.now_keepsTo_of_eq _ rfl
  · exact (r.refineUntil_keepsTo cap _).readOff _

end

end IsolatedRoot

/-! ## Two roots -/

namespace Contest

open IsolatedRoot

/-- The bisections of both roots. -/
def bisections (s : Contest) : Nat :=
  s.left.refinements + s.right.refinements

/-- A step from a state without an answer bisects a root that is not known exactly: the
one whose turn it is, or the other one if that is known. -/
theorem bisections_step {s : Contest} (h : decide? s = none) :
    s.step.bisections = s.bisections + 1 := by
  cases hl : s.left.location with
  | exact v =>
      cases hr : s.right.location with
      | exact w =>
          -- two known values are always compared
          have hsome := compareValue?_isSome_of_exact w hl
          simp only [decide?, hl, hr, Option.map_eq_none_iff] at h
          rw [h] at hsome
          cases hsome
      | between l u =>
          have hstep : s.step = ⟨s.left, s.right.refine, !s.leftNext⟩ :=
            if_neg (by simp [isExact, hl, Location.isExact])
          rw [hstep, bisections, bisections, refinements_refine hr, Nat.add_assoc]
  | between l u =>
      rcases hturn : s.right.isExact || s.leftNext with _ | _
      · have hstep : s.step = ⟨s.left, s.right.refine, !s.leftNext⟩ :=
          if_neg (by simp [hturn])
        obtain ⟨hexact, -⟩ := Bool.or_eq_false_iff.mp hturn
        cases hr : s.right.location with
        | exact w =>
            rw [isExact, hr] at hexact
            cases hexact
        | between l' u' =>
            rw [hstep, bisections, bisections, refinements_refine hr, Nat.add_assoc]
      · have hexact : s.left.isExact = false := by rw [isExact, hl, Location.isExact]
        have hstep : s.step = ⟨s.left.refine, s.right, !s.leftNext⟩ :=
          if_pos (by rw [hturn, hexact]; rfl)
        rw [hstep, bisections, bisections, refinements_refine hl, Nat.add_right_comm]

theorem bisections_of_decide? {s t : Contest} {a : Ordering} (h : decide? s = some (a, t)) :
    t.bisections = s.bisections := by
  obtain ⟨hl, hr⟩ := settles_decide? h
  rw [bisections, bisections, hl.refinements_eq, hr.refinements_eq]

end Contest

theorem IsolatedRoot.compare_keepsTo (a b : IsolatedRoot) (cap : Nat) :
    (a.compare b cap).KeepsTo (fun s => s.1.refinements + s.2.refinements) cap (a, b) := by
  unfold IsolatedRoot.compare
  split
  · exact Outcome.now_keepsTo _
  · have hsearch : (search Contest.decide? Contest.step cap ⟨a, b, true⟩).KeepsTo
        Contest.bisections cap ⟨a, b, true⟩ :=
      search_keepsTo (fun s hs => Contest.bisections_step hs)
        (fun s o t hst => Contest.bisections_of_decide? hst) cap _
    exact hsearch.mapState (fun s => (s.left, s.right)) fun _ => rfl

namespace IsolatedRoot

/-- **The loop in turn keeps to its cap.** What one round keeps is that as many bisections
have been counted since the start as there were rounds; the last round may hand over to the
order of one root with a rational number. -/
theorem compareFrom_keepsTo {a b : IsolatedRoot} {s : IsolatedRoot × IsolatedRoot}
    {cap steps : Nat} (hle : steps ≤ cap)
    (hcount : a.refinements + b.refinements = s.1.refinements + s.2.refinements + steps) :
    (compareFrom cap steps a b).KeepsTo (fun t => t.1.refinements + t.2.refinements) cap s := by
  fun_induction compareFrom cap steps a b with
  | case1 steps a b v hright =>
      have ha := a.compareValueOnce_keepsTo (cap - steps) v
      exact (ha.mapState_add (k := b.refinements) (fun a' => (a', b)) fun _ => rfl).after hle hcount
  | case2 steps a b l u v hleft hright =>
      have hb := (b.compareValueOnce_keepsTo (cap - steps) v).map Ordering.swap
      exact (hb.mapState_add (fun b' => (a, b')) fun b' =>
        Nat.add_comm a.refinements b'.refinements).after hle hcount
  | case3 steps a b =>
      exact ⟨hcount, hle, fun e he => by cases he⟩
  | case4 steps a b =>
      exact ⟨hcount, hle, fun e he => by cases he⟩
  | case5 steps a b l' u' l u hleft hright hmeet hnot hcap =>
      obtain rfl : steps = cap := le_antisymm hle hcap
      refine ⟨hcount, hle, fun e he => ?_⟩
      cases he
      exact ⟨rfl, rfl⟩
  | case6 steps a b l' u' l u hleft hright hmeet hnot hcap heven ih =>
      refine ih (by omega) ?_
      rw [refinements_refine hleft]
      omega
  | case7 steps a b l' u' l u hleft hright hmeet hnot hcap hodd ih =>
      refine ih (by omega) ?_
      rw [refinements_refine hright]
      omega

theorem compareInTurn_keepsTo (a b : IsolatedRoot) (cap : Nat) :
    (a.compareInTurn b cap).KeepsTo (fun s => s.1.refinements + s.2.refinements) cap (a, b) :=
  compareFrom_keepsTo (Nat.zero_le cap) rfl

end IsolatedRoot

/-! ## Numbers -/

namespace Number

section

variable (a b : Number) (limits : Limits)

theorem signOf_keepsTo (ev : Evaluator) (q : Poly) :
    (a.signOf ev q limits).KeepsTo refinements limits.maxRefinements a := by
  cases a with
  | rational v mark => exact Outcome.now_keepsTo _
  | root r => exact (r.signOf_keepsTo limits.maxRefinements ev q).mapState root fun _ => rfl

theorem branchingPoint_keepsTo :
    (a.branchingPoint limits).KeepsTo refinements limits.maxRefinements a := by
  cases a with
  | rational v mark => exact Outcome.now_keepsTo _
  | root r => exact (r.branchingPoint_keepsTo limits.maxRefinements).mapState root fun _ => rfl

theorem containedIn_keepsTo (query : Interval) :
    (a.containedIn query limits).KeepsTo refinements limits.maxRefinements a := by
  cases a with
  | rational v mark => exact Outcome.now_keepsTo _
  | root r => exact (r.containedIn_keepsTo limits.maxRefinements query).mapState root fun _ => rfl

theorem refineToPrecision_keepsTo :
    (a.refineToPrecision limits).KeepsTo refinements limits.maxRefinements a := by
  cases a with
  | rational v mark => exact Outcome.now_keepsTo _
  | root r => exact (r.refineUntil_keepsTo limits.maxRefinements _).mapState root fun _ => rfl

theorem compare_keepsTo :
    (a.compare limits b).KeepsTo (fun s => s.1.refinements + s.2.refinements)
      limits.maxRefinements (a, b) := by
  cases a with
  | rational v m =>
      cases b with
      | rational w n => exact Outcome.now_keepsTo _
      | root s =>
          have hs := (s.compareValue_keepsTo limits.maxRefinements v).map Ordering.swap
          exact hs.mapState (fun t => (rational v m, root t)) fun t => Nat.zero_add t.refinements
  | root r =>
      cases b with
      | rational w n =>
          have hr := r.compareValue_keepsTo limits.maxRefinements w
          exact hr.mapState (fun t => (root t, rational w n)) fun _ => rfl
      | root s =>
          have hrs := r.compare_keepsTo s limits.maxRefinements
          exact hrs.mapState (fun t => (root t.1, root t.2)) fun _ => rfl

end

/-- **Every query keeps to its cap.** For all numbers, rational or roots, in any state,
and all limits: the bisections of a query, as the numbers count them (both numbers
together in a comparison), are at most as many as the limits allow; and the only error
there can be is that the query did not converge, which says the number allowed, and then
exactly so many bisections were made. The same holds for the two queries that only roots
have, with the cap they are given.

The same holds of the loops that look once before they refine, and of the comparison in
turn, which hands the rest of its cap over to another loop; and on roots that can arise the
queries are these loops. -/
theorem queries_keep_to_cap (limits : Limits) (a b : Number) :
    (∀ ev q, (a.signOf ev q limits).KeepsTo refinements limits.maxRefinements a)
      ∧ (∀ query, (a.containedIn query limits).KeepsTo refinements limits.maxRefinements a)
      ∧ (a.branchingPoint limits).KeepsTo refinements limits.maxRefinements a
      ∧ (a.refineToPrecision limits).KeepsTo refinements limits.maxRefinements a
      ∧ (a.compare limits b).KeepsTo (fun s => s.1.refinements + s.2.refinements)
        limits.maxRefinements (a, b)
      ∧ (∀ (r : IsolatedRoot) (cap : Nat),
        (∀ v, (r.compareValue v cap).KeepsTo IsolatedRoot.refinements cap r)
        ∧ ∀ stop, (r.refineUntil stop cap).KeepsTo IsolatedRoot.refinements cap r)
      ∧ (∀ (r : IsolatedRoot) (cap : Nat),
        (∀ v, (r.compareValueOnce v cap).KeepsTo IsolatedRoot.refinements cap r)
        ∧ (∀ query, (r.containedInOnce query cap).KeepsTo IsolatedRoot.refinements cap r)
        ∧ ∀ s, (r.compareInTurn s cap).KeepsTo (fun t => t.1.refinements + t.2.refinements)
          cap (r, s))
      ∧ ∀ (r s : IsolatedRoot) (γ δ : ℝ), (root r).Reaches γ → (root s).Reaches δ → ∀ cap,
        (∀ v, r.compareValue v cap = r.compareValueOnce v cap)
        ∧ (∀ query, r.containedIn query cap = r.containedInOnce query cap)
        ∧ r.compare s cap = r.compareInTurn s cap := by
  refine ⟨fun ev q => a.signOf_keepsTo limits ev q, fun query => a.containedIn_keepsTo limits query,
    a.branchingPoint_keepsTo limits, a.refineToPrecision_keepsTo limits,
    a.compare_keepsTo b limits, fun r cap => ⟨fun v => ?_, fun stop => ?_⟩,
    fun r cap => ⟨fun v => ?_, fun query => ?_, fun s => ?_⟩,
    fun r s γ δ hr hs cap => ⟨fun v => ?_, fun query => ?_, ?_⟩⟩
  · exact r.compareValue_keepsTo cap v
  · exact r.refineUntil_keepsTo cap stop
  · exact r.compareValueOnce_keepsTo cap v
  · exact r.containedInOnce_keepsTo cap query
  · exact r.compareInTurn_keepsTo s cap
  · exact IsolatedRoot.compareValue_eq_once hr.denotes v cap
  · exact IsolatedRoot.containedIn_eq_once hr.denotes query cap
  · exact IsolatedRoot.compare_eq_inTurn hr.denotes hs.denotes cap

/-- The positive root of `x² - 2` against the only root of `(128x - 181)(x² + 1)`, which is
met after seven bisections of the two in turn. The order of the other one with it takes what
is left of the cap, and all twenty bisections are counted. -/
theorem queries_keep_to_cap_across_collapse :
    ∃ (r s : IsolatedRoot) (γ δ : ℝ), (root r).Reaches γ ∧ (root s).Reaches δ
      ∧ r.poly = .ofCoeffs [-2, 0, 1] ∧ s.poly = .ofCoeffs [-181, 128, -181, 128]
      ∧ (r.compareInTurn s 20).answer = .error (.notConverged 20)
      ∧ (r.compareInTurn s 20).state.2.value? = some (181 / 128)
      ∧ (r.compareInTurn s 20).state.1.refinements
        + (r.compareInTurn s 20).state.2.refinements = 20 := by
  have hleft : ∃ γ, (root ⟨.ofPoly (.ofCoeffs [-2, 0, 1]), .between 0 3, true, 0⟩).Reaches γ :=
    exists_reaches_of_locate (I := .between 0 3) (by decide) (by decide +kernel)
      (by decide +kernel) true
  have hright : ∃ δ, (root ⟨.ofPoly (.ofCoeffs [-181, 128, -181, 128]), .between 1 2, true,
      0⟩).Reaches δ :=
    exists_reaches_of_locate (I := .between 1 2) (by decide) (by decide +kernel)
      (by decide +kernel) true
  obtain ⟨γ, hr⟩ := hleft
  obtain ⟨δ, hs⟩ := hright
  obtain ⟨-, -, -, -, -, -, hkeeps, hloops⟩ :=
    queries_keep_to_cap {} (rational 0 true) (rational 0 true)
  -- the search is evaluated, and the loop is the search
  have heq := (hloops _ _ γ δ hr hs 20).2.2
  have hanswer := (congrArg Outcome.answer heq).symm.trans
    (by decide +kernel : _ = Except.error (AlgebraicError.notConverged 20))
  have hvalue := (congrArg (fun o => o.state.2.value?) heq).symm.trans
    (by decide +kernel : _ = some (181 / 128 : Rat))
  obtain ⟨hcounted, -, herror⟩ := (hkeeps _ 20).2.2 _
  obtain ⟨-, hsteps⟩ := herror _ hanswer
  rw [hsteps] at hcounted
  exact ⟨_, _, γ, δ, hr, hs, rfl, rfl, hanswer, hvalue, hcounted⟩

end Number

end AlgebraicReals
