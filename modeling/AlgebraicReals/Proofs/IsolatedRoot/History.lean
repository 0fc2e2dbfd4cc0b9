import Mathlib
import AlgebraicReals.Proofs.IsolatedRoot.Bisection
import AlgebraicReals.Proofs.IsolatedRoot.Runs
import AlgebraicReals.Proofs.Number.Budget

set_option autoImplicit false

/-! # The interval does not remember its history

Bisecting an interval again and again, and keeping the half that holds the real number `α`,
gives a sequence of intervals that depends on `α` and on the first interval only; this is
`bisection`. A root that is not known exactly runs through this sequence, whatever the
operations on it are, since there is no other way to change its interval, and its counter
tells how far it has come. `BisectedFrom` says so for two states of a root, and it is kept
by everything that is done to a root.

The width is thus known beforehand, and with it the number of bisections that a precision
needs (`refineToPrecision_cases`). -/

namespace AlgebraicReals

/-! ## Bisection of an interval -/

/-- The half of the interval between two rationals that holds `α`. -/
noncomputable def halfWith (α : ℝ) (ends : Rat × Rat) : Rat × Rat :=
  if α < Rational.midpoint ends.1 ends.2 then (ends.1, Rational.midpoint ends.1 ends.2)
  else (Rational.midpoint ends.1 ends.2, ends.2)

/-- The interval after `n` bisections of the one between `l` and `u` that keep `α`. -/
noncomputable def bisection (α : ℝ) (l u : Rat) (n : Nat) : Interval :=
  .between ((halfWith α)^[n] (l, u)).1 ((halfWith α)^[n] (l, u)).2

theorem width_halfWith (α : ℝ) (ends : Rat × Rat) :
    (halfWith α ends).2 - (halfWith α ends).1 = (ends.2 - ends.1) / 2 := by
  unfold halfWith Rational.midpoint
  split
  · ring
  · ring

theorem width_iterate_halfWith (α : ℝ) (ends : Rat × Rat) (n : Nat) :
    ((halfWith α)^[n] ends).2 - ((halfWith α)^[n] ends).1 = (ends.2 - ends.1) / 2 ^ n := by
  induction n with
  | zero => simp
  | succ n ih =>
      rw [Function.iterate_succ_apply', width_halfWith, ih, pow_succ, div_div]

namespace IsolatedRoot

/-! ## Bisection of a root -/

theorem isExact_eq_false_iff {r : IsolatedRoot} :
    r.isExact = false ↔ ∃ l u, r.location = .between l u := by
  rw [isExact]
  cases r.location with
  | exact v => simp [Location.isExact]
  | between l u => simp [Location.isExact]

theorem value?_eq_none_iff {r : IsolatedRoot} : r.value? = none ↔ r.isExact = false := by
  rw [value?, isExact]
  cases r.location with
  | exact v => simp [Location.value?, Location.isExact]
  | between l u => simp [Location.value?, Location.isExact]

section

variable {r : IsolatedRoot} {α : ℝ} (h : r.Isolates α)

include h

/-- A bisection that does not meet the root leaves the half that holds it. -/
theorem location_refine {l u l' u' : Rat} (hloc : r.location = .between l u)
    (hnext : r.refine.location = .between l' u') : (l', u') = halfWith α (l, u) := by
  rcases refine_cases h hloc with ⟨hr, -⟩ | ⟨hr, htraps⟩ | ⟨hr, htraps⟩
  · rw [hr] at hnext
    cases hnext
  · rw [hr] at hnext
    cases hnext
    exact (if_pos htraps.upper).symm
  · rw [hr] at hnext
    cases hnext
    exact (if_neg htraps.lower.not_gt).symm

/-- A root that is still not known exactly after `n` bisections was not before, and it
lies in the `n`-th interval. -/
theorem location_iterate_refine {n : Nat} {l' u' : Rat}
    (hn : (IsolatedRoot.refine^[n] r).location = .between l' u') :
    ∃ l u, r.location = .between l u ∧ (l', u') = (halfWith α)^[n] (l, u) := by
  induction n generalizing l' u' with
  | zero => exact ⟨l', u', hn, rfl⟩
  | succ n ih =>
      rw [Function.iterate_succ_apply'] at hn
      cases hprev : (IsolatedRoot.refine^[n] r).location with
      | exact v =>
          rw [refine_of_exact hprev, hprev] at hn
          cases hn
      | between l u =>
          obtain ⟨l₀, u₀, hloc, hends⟩ := ih hprev
          refine ⟨l₀, u₀, hloc, ?_⟩
          rw [Function.iterate_succ_apply', ← hends]
          exact location_refine (iterate_refine_tracks h n).1 hprev hn

theorem width_iterate_refine {n : Nat} (hn : (IsolatedRoot.refine^[n] r).isExact = false) :
    (IsolatedRoot.refine^[n] r).width = r.width / 2 ^ n := by
  obtain ⟨l', u', hlast⟩ := isExact_eq_false_iff.mp hn
  obtain ⟨l, u, hloc, hends⟩ := location_iterate_refine h hlast
  have hwidth := width_iterate_halfWith α (l, u) n
  rw [← hends] at hwidth
  rw [width_of_between hlast, width_of_between hloc]
  exact hwidth

end

/-! ## Histories -/

/-- The state `s` of a root is what `k` bisections make of `r`, unless its value has been
found. -/
structure BisectedFrom (r : IsolatedRoot) (k : Nat) (s : IsolatedRoot) : Prop where
  chain : s.chain = r.chain
  refinements : s.refinements = r.refinements + k
  location : s.isExact = false → s.location = (IsolatedRoot.refine^[k] r).location

/-- What a bisection does to the location depends on the chain and the location only. -/
theorem location_refine_congr {s t : IsolatedRoot} (hchain : s.chain = t.chain)
    (hloc : s.location = t.location) : s.refine.location = t.refine.location := by
  cases ht : t.location with
  | exact v => rw [refine_of_exact ht, refine_of_exact (hloc.trans ht), hloc]
  | between l u =>
      have hs := hloc.trans ht
      simp only [refine, hs, ht, hchain]

theorem chain_iterate_refine (r : IsolatedRoot) (k : Nat) :
    (IsolatedRoot.refine^[k] r).chain = r.chain := by
  induction k with
  | zero => rfl
  | succ k ih => rw [Function.iterate_succ_apply', chain_refine, ih]

section

variable {r s t : IsolatedRoot} {k : Nat}

theorem BisectedFrom.refl (r : IsolatedRoot) : BisectedFrom r 0 r :=
  ⟨rfl, rfl, fun _ => rfl⟩

theorem BisectedFrom.refine (h : BisectedFrom r k s) : ∃ j, BisectedFrom r j s.refine := by
  cases hloc : s.location with
  | exact v =>
      rw [refine_of_exact hloc]
      exact ⟨k, h⟩
  | between l u =>
      have hk := h.location (isExact_eq_false_iff.mpr ⟨l, u, hloc⟩)
      refine ⟨k + 1, s.chain_refine.trans h.chain, ?_, fun _ => ?_⟩
      · rw [refinements_refine hloc, h.refinements, Nat.add_assoc]
      · rw [Function.iterate_succ_apply']
        exact location_refine_congr (h.chain.trans (r.chain_iterate_refine k).symm) hk

theorem BisectedFrom.settles (h : BisectedFrom r k s) (hst : Settles s t) :
    BisectedFrom r k t := by
  refine ⟨hst.follows.chain.trans h.chain, hst.refinements_eq.trans h.refinements, ?_⟩
  rcases hst with rfl | ⟨_, _, v, _, _, _, _, rfl⟩
  · exact h.location
  · intro hexact
    cases hexact

theorem BisectedFrom.setIsRoot (h : BisectedFrom r k s) (mark : Bool) :
    BisectedFrom r k (s.setIsRoot mark) :=
  ⟨h.chain, h.refinements, h.location⟩

end

theorem persists_bisectedFrom (r : IsolatedRoot) (α : ℝ) :
    Persists α fun s => s.Isolates α ∧ ∃ k, BisectedFrom r k s where
  isolates _ hs := hs.1
  refine _ hs := by
    obtain ⟨hiso, k, hk⟩ := hs
    exact ⟨refine_isolates hiso, hk.refine⟩
  settles _ _ hs hst := by
    obtain ⟨hiso, k, hk⟩ := hs
    exact ⟨hst.isolates hiso, k, hk.settles hst⟩

/-- No operation leaves the sequence of bisections. -/
theorem Operation.apply_bisectedFrom {r s : IsolatedRoot} {α : ℝ} (hs : s.Isolates α) {k : Nat}
    (h : BisectedFrom r k s) (op : Operation) : ∃ j, BisectedFrom r j (op.apply s) := by
  by_cases hop : ∃ mark, op = .setIsRoot mark
  · obtain ⟨mark, rfl⟩ := hop
    exact ⟨k, h.setIsRoot mark⟩
  · exact ((persists_bisectedFrom r α).apply ⟨hs, k, h⟩ op fun mark heq => hop ⟨mark, heq⟩).2

theorem run_bisectedFrom {r : IsolatedRoot} {α : ℝ} (h : r.Isolates α) (ops : List Operation) :
    ∃ k, BisectedFrom r k (r.run ops) := by
  induction ops using List.reverseRecOn with
  | nil => exact ⟨0, BisectedFrom.refl r⟩
  | append_singleton ops op ih =>
      obtain ⟨k, hk⟩ := ih
      rw [run_append_singleton]
      exact op.apply_bisectedFrom (run_isolates h ops) hk

theorem ArisesFrom.refinements_eq {p : Poly} {I : Interval} {r : IsolatedRoot}
    (made : ArisesFrom p I r) : r.refinements = 0 := by
  obtain ⟨mark, hmade⟩ := made.ofChain
  unfold IsolatedRoot.ofChain at hmade
  split at hmade
  · cases hmade
  simp only at hmade
  split at hmade
  · cases hmade
    rfl
  · cases hmade

section

variable {r : IsolatedRoot} {α : ℝ} (h : r.Isolates α) (hcount : r.refinements = 0)
  {ops : List Operation} (hops : (r.run ops).isExact = false)

include h hcount hops

/-- The location in closed form: a root that was made with its counter at `0`, and that is
not known exactly after some operations, lies where its counter tells. -/
theorem location_run :
    (r.run ops).location = (IsolatedRoot.refine^[(r.run ops).refinements] r).location := by
  obtain ⟨k, hk⟩ := run_bisectedFrom h ops
  have hkeq : (r.run ops).refinements = k := by rw [hk.refinements, hcount, Nat.zero_add]
  rw [hkeq]
  exact hk.location hops

theorem interval_run :
    ∃ l u, r.location = .between l u
      ∧ (r.run ops).interval = bisection α l u (r.run ops).refinements := by
  obtain ⟨l', u', hlast⟩ := isExact_eq_false_iff.mp hops
  obtain ⟨l, u, hloc, hends⟩ :=
    location_iterate_refine h ((location_run h hcount hops).symm.trans hlast)
  refine ⟨l, u, hloc, ?_⟩
  rw [interval, hlast, bisection, ← hends, Location.interval]

theorem width_run : (r.run ops).width = r.width / 2 ^ (r.run ops).refinements := by
  have hloc := location_run h hcount hops
  have hexact : (IsolatedRoot.refine^[(r.run ops).refinements] r).isExact = false := by
    rw [isExact, ← hloc]
    exact hops
  rw [← width_iterate_refine h hexact, width, width, interval, interval, hloc]

end

/-- Two roots of one polynomial that were made in the same interval are the same number. -/
theorem eq_of_location_eq {r s : IsolatedRoot} {α β : ℝ} (hr : r.Isolates α)
    (hs : s.Isolates β) (hpoly : s.poly = r.poly) {l u : Rat} (hrloc : r.location = .between l u)
    (hsloc : s.location = .between l u) : β = α := by
  have htraps := hs.traps hsloc
  refine (hr.traps hrloc).only β ?_ htraps.lower htraps.upper
  rw [← hpoly]
  exact hs.root

/-! ## Precision -/

theorem width?_interval (r : IsolatedRoot) : r.interval.width? = some r.width := by
  rw [width, interval]
  cases r.location with
  | exact v => rfl
  | between l u => rfl

theorem narrowerThan_interval (w : Rat) (r : IsolatedRoot) :
    narrowerThan w r.interval = true ↔ r.width < w := by
  rw [narrowerThan, width?_interval]
  exact decide_eq_true_iff

theorem refined?_eq_none {w : Rat} {r : IsolatedRoot} (hr : refined? (narrowerThan w) r = none) :
    r.isExact = false ∧ w ≤ r.width := by
  unfold refined? at hr
  split at hr
  · cases hr
  rename_i hexact
  split at hr
  · cases hr
  · rename_i hwide
    rw [narrowerThan_interval, not_lt] at hwide
    exact ⟨Bool.eq_false_iff.mpr hexact, hwide⟩

theorem refined?_eq_some {w : Rat} {r s : IsolatedRoot} {a : Refinement}
    (hr : refined? (narrowerThan w) r = some (a, s)) :
    s = r ∧ ((a = .collapsed ∧ r.isExact = true)
      ∨ (a = .resolved ∧ r.isExact = false ∧ r.width < w)) := by
  unfold refined? at hr
  split at hr
  · rename_i hexact
    cases hr
    exact ⟨rfl, .inl ⟨rfl, hexact⟩⟩
  rename_i hexact
  split at hr
  · rename_i hnarrow
    cases hr
    exact ⟨rfl, .inr ⟨rfl, Bool.eq_false_iff.mpr hexact, (narrowerThan_interval w r).mp hnarrow⟩⟩
  · cases hr

/-- Some number of halvings makes a width as small as wanted, so there is a least one. -/
theorem exists_isLeast_halvings (w : Rat) {δ : Rat} (hδ : 0 < δ) :
    ∃ n : Nat, IsLeast {n : Nat | w / 2 ^ n < δ} n := by
  obtain ⟨n, hn⟩ := pow_unbounded_of_one_lt (w / δ) one_lt_two
  have hmem : n ∈ {n : Nat | w / 2 ^ n < δ} := by
    show w / 2 ^ n < δ
    rw [div_lt_comm₀ (by positivity) hδ]
    exact hn
  exact ⟨sInf _, Nat.sInf_mem ⟨n, hmem⟩, fun m hm => Nat.sInf_le hm⟩

section

variable {r : IsolatedRoot} {α : ℝ} (h : r.Isolates α)

include h

theorem approximation_of_exact (hexact : r.isExact = true) :
    ∃ v, r.value? = some v ∧ (v : ℝ) = α ∧ r.approximation = v := by
  cases hloc : r.location with
  | exact v =>
      refine ⟨v, ?_, h.value_eq hloc, ?_⟩
      · rw [value?, hloc, Location.value?]
      · rw [approximation, hloc]
  | between l u =>
      rw [isExact, hloc] at hexact
      cases hexact

theorem abs_approximation_sub_lt (hexact : r.isExact = false) :
    |(r.approximation : ℝ) - α| < (r.width : ℝ) / 2 := by
  obtain ⟨l, u, hloc⟩ := isExact_eq_false_iff.mp hexact
  have htraps := h.traps hloc
  have happrox : r.approximation = (l + u) / 2 := by
    rw [approximation, hloc]
    rfl
  rw [happrox, width_of_between hloc, abs_lt]
  push_cast
  constructor
  · linarith [htraps.upper]
  · linarith [htraps.lower]

/-- **All that refining to a precision can do**, if the cap allows for the bisections that
the width asks for: these bisections, or fewer of them if the value is met before. -/
theorem refineToPrecision_cases {limits : Limits} {n : Nat}
    (hn : IsLeast {n : Nat | r.width / 2 ^ n < limits.targetWidth} n)
    (hcap : n ≤ limits.maxRefinements) :
    (∃ k ≤ n, (IsolatedRoot.refine^[k] r).isExact = true
        ∧ r.refineToPrecision limits = ⟨.ok .collapsed, IsolatedRoot.refine^[k] r, k, 0⟩)
      ∨ ((IsolatedRoot.refine^[n] r).isExact = false
        ∧ (IsolatedRoot.refine^[n] r).width < limits.targetWidth
        ∧ r.refineToPrecision limits = ⟨.ok .resolved, IsolatedRoot.refine^[n] r, n, 0⟩) := by
  -- after `n` bisections the interval is narrow enough, so the test answers by then
  have hanswered : refined? (narrowerThan limits.targetWidth) (IsolatedRoot.refine^[n] r) ≠ none := by
    intro hnone
    obtain ⟨hexact, hwide⟩ := refined?_eq_none hnone
    rw [width_iterate_refine h hexact] at hwide
    exact absurd hn.1 (not_lt.mpr hwide)
  rcases search_cases (refined? (narrowerThan limits.targetWidth)) IsolatedRoot.refine
      limits.maxRefinements r with ⟨k, -, a, s, hnone, hsome, hres⟩ | ⟨hnone, -⟩
  · have hkn : k ≤ n := not_lt.mp fun hlt => hanswered (hnone n hlt)
    obtain ⟨rfl, ⟨rfl, hexact⟩ | ⟨rfl, hexact, hnarrow⟩⟩ := refined?_eq_some hsome
    · exact .inl ⟨k, hkn, hexact, hres⟩
    · -- and not before, as the width is exactly that of `k` halvings
      have hnk : n ≤ k := by
        apply hn.2
        show r.width / 2 ^ k < limits.targetWidth
        rw [← width_iterate_refine h hexact]
        exact hnarrow
      obtain rfl := le_antisymm hkn hnk
      exact .inr ⟨hexact, hnarrow, hres⟩
  · exact absurd (hnone n hcap) hanswered

end

/-- A refinement to `bits` binary places of a root `r`, which stands for `α`, has ended
well: either it made exactly `n` bisections, and the number to approximate the root with is
nearer to it than half the last place; or it made at most so many and met the root. -/
def EndsWithin (r : IsolatedRoot) (α : ℝ) (bits n : Nat) (o : Outcome IsolatedRoot Refinement) :
    Prop :=
  o.state.refinements = r.refinements + o.steps
    ∧ ((o.answer = .ok .resolved ∧ o.state.value? = none ∧ o.steps = n
        ∧ |(o.state.approximation : ℝ) - α| < 1 / 2 ^ (bits + 1))
      ∨ (o.answer = .ok .collapsed ∧ o.steps ≤ n
        ∧ ∃ v, o.state.value? = some v ∧ (v : ℝ) = α ∧ o.state.approximation = v))

theorem refineToPrecision_endsWithin {r : IsolatedRoot} {α : ℝ} (h : r.Isolates α)
    {limits : Limits} {n : Nat} (hn : IsLeast {n : Nat | r.width / 2 ^ n < limits.targetWidth} n)
    (hcap : n ≤ limits.maxRefinements) :
    EndsWithin r α limits.precisionBits n (r.refineToPrecision limits) := by
  refine ⟨(r.refineUntil_keepsTo limits.maxRefinements _).counted, ?_⟩
  rcases refineToPrecision_cases h hn hcap with
    ⟨k, hk, hexact, hres⟩ | ⟨hexact, hnarrow, hres⟩
  · rw [hres]
    exact .inr ⟨rfl, hk, approximation_of_exact (iterate_refine_tracks h k).1 hexact⟩
  · rw [hres]
    refine .inl ⟨rfl, value?_eq_none_iff.mpr hexact, rfl, ?_⟩
    have hlt : ((IsolatedRoot.refine^[n] r).width : ℝ) < 1 / 2 ^ limits.precisionBits := by
      have hcast := Rat.cast_lt (K := ℝ).mpr hnarrow
      rwa [Limits.targetWidth, Rat.cast_div, Rat.cast_one, Rat.cast_pow, Rat.cast_ofNat] at hcast
    calc |((IsolatedRoot.refine^[n] r).approximation : ℝ) - α|
        < ((IsolatedRoot.refine^[n] r).width : ℝ) / 2 :=
          abs_approximation_sub_lt (iterate_refine_tracks h n).1 hexact
      _ ≤ 1 / 2 ^ limits.precisionBits / 2 := by gcongr
      _ = 1 / 2 ^ (limits.precisionBits + 1) := by rw [div_div, pow_succ]

/-- **The interval of a root depends on its counter, not on its history.** Let a root be
made from the polynomial `p` and the interval `I`, so that it stands for the only root `α`
of `p` in `I`, and let it not be known exactly after some operations, whatever they were.
Then its interval is what as many bisections as its counter tells, with `α` kept, make of
the interval that it was made with, and the width is halved as often. Any root of `p` that
was made with the same interval is in the same interval whenever its counter is the same.

To refine it to a precision, let `n` be the least number of halvings after which the width
is below the last binary place. If the cap allows for `n` bisections, refining succeeds: it
makes exactly `n` of them, unless it meets the root earlier, and the number to approximate
the root with is then nearer to it than half the last place, or the root itself. -/
theorem interval_forgets_history {p : Poly} {I : Interval} {r : IsolatedRoot}
    (made : ArisesFrom p I r) :
    ∃ α : ℝ, p.realRoots ∩ I.toSet = {α} ∧ ∀ ops : List Operation, (r.run ops).value? = none →
      (∃ l u, r.interval = .between l u
        ∧ (r.run ops).interval = bisection α l u (r.run ops).refinements)
      ∧ (r.run ops).width = r.width / 2 ^ (r.run ops).refinements
      ∧ (∀ J s, ArisesFrom p J s → s.interval = r.interval → ∀ ops', (s.run ops').value? = none →
        (s.run ops').refinements = (r.run ops).refinements →
          (s.run ops').interval = (r.run ops).interval)
      ∧ ∀ limits : Limits, ∃ n,
        IsLeast {n : Nat | (r.run ops).width / 2 ^ n < 1 / 2 ^ limits.precisionBits} n
        ∧ (n ≤ limits.maxRefinements →
          EndsWithin (r.run ops) α limits.precisionBits n
            ((r.run ops).refineToPrecision limits)) := by
  obtain ⟨hchain, α, hα, hiso⟩ := made.isolates
  refine ⟨α, hα, fun ops hops => ?_⟩
  rw [value?_eq_none_iff] at hops
  obtain ⟨l, u, hloc, hinterval⟩ := interval_run hiso made.refinements_eq hops
  have hr : r.interval = .between l u := by rw [interval, hloc, Location.interval]
  refine ⟨⟨l, u, hr, hinterval⟩, width_run hiso made.refinements_eq hops, ?_, fun limits => ?_⟩
  · intro J s hmade hsame ops' hops' hcount
    obtain ⟨hchain', β, -, hiso'⟩ := hmade.isolates
    rw [value?_eq_none_iff] at hops'
    obtain ⟨l', u', hloc', hinterval'⟩ := interval_run hiso' hmade.refinements_eq hops'
    have hends : Interval.between l' u' = .between l u := by
      rw [← hr, ← hsame, interval, hloc', Location.interval]
    cases hends
    have hpoly : s.poly = r.poly := congrArg SturmChain.source (hchain'.trans hchain.symm)
    rw [hinterval', hinterval, hcount, eq_of_location_eq hiso hiso' hpoly hloc hloc']
  · obtain ⟨n, hn⟩ := exists_isLeast_halvings (r.run ops).width
      (δ := limits.targetWidth) (by unfold Limits.targetWidth; positivity)
    exact ⟨n, hn, refineToPrecision_endsWithin (run_isolates hiso ops) hn⟩

/-- The root of `x² - 2` between `1` and `2` is refined to `10` binary places by `11`
bisections, since a width of `1 / 2 ^ 10` is not yet below the last place. -/
theorem interval_forgets_history_sqrt_two :
    ∃ r, ArisesFrom (.ofCoeffs [-2, 0, 1]) (.between 1 2) r ∧ r.value? = none
      ∧ ∃ α : ℝ, (Poly.ofCoeffs [-2, 0, 1]).realRoots ∩ (Interval.between 1 2).toSet = {α}
        ∧ EndsWithin r α 10 11 (r.refineToPrecision ⟨1000, 10⟩) := by
  have hmade : ofPoly (.ofCoeffs [-2, 0, 1]) (.between 1 2) false
      = .ok ⟨.ofPoly (.ofCoeffs [-2, 0, 1]), .between 1 2, false, 0⟩ := by
    have hlocate : (SturmChain.ofPoly (.ofCoeffs [-2, 0, 1])).locate (.between 1 2)
        = .between 1 2 := by decide +kernel
    rw [ofPoly, ofChain, if_neg (by decide +kernel), hlocate]
    exact if_pos (by decide +kernel)
  have made : ArisesFrom (.ofCoeffs [-2, 0, 1]) (.between 1 2) _ := ⟨false, .inl hmade⟩
  obtain ⟨α, hα, hrun⟩ := interval_forgets_history made
  obtain ⟨-, -, -, hprecision⟩ := hrun [] rfl
  obtain ⟨n, hn, hends⟩ := hprecision ⟨1000, 10⟩
  have hleast : IsLeast {n : Nat | (2 - 1 : Rat) / 2 ^ n < 1 / 2 ^ 10} 11 := by
    refine ⟨by norm_num, fun m hm => ?_⟩
    by_contra hlt
    have hpow : (2 : Rat) ^ m ≤ 2 ^ 10 := pow_le_pow_right₀ one_le_two (by omega)
    have hle : (1 : Rat) / 2 ^ 10 ≤ (2 - 1) / 2 ^ m := by
      rw [show (2 - 1 : Rat) = 1 by norm_num]
      gcongr
    exact absurd hm (not_lt.mpr hle)
  obtain rfl : n = 11 := hn.unique hleast
  exact ⟨_, made, rfl, α, hα, hends (by decide)⟩

end IsolatedRoot

end AlgebraicReals
