import Mathlib
import AlgebraicReals.Context
import AlgebraicReals.Proofs.IsolatedRoot.Steps

set_option autoImplicit false

/-! # Whole runs of an isolated root

A root lives through a sequence of operations: bisections, queries with any cap,
comparisons on either side, changes of its mark. `Operation` lists them with all
that they are given, `Operation.apply` is the state that one leaves behind, and
`run` is the state after a sequence.

The main statement, `run_keeps_root`, says that a root made from an interval with
one real root `α` in it stands for `α` for the rest of its life. -/

namespace AlgebraicReals

namespace IsolatedRoot

/-! ## Operations -/

/-- An operation on a root, with what it is given besides the root. -/
inductive Operation where
  | refine
  /-- A test that remembers its earlier calls is one on intervals, too, as it sees no
  interval twice. -/
  | refineUntil (stop : Interval → Bool) (cap : Nat)
  | refineToPrecision (limits : Limits)
  | signOf (ev : Evaluator) (q : Poly) (cap : Nat)
  | containedIn (query : Interval) (cap : Nat)
  | compareValue (v : Rat) (cap : Nat)
  /-- A comparison in which the root stands on the left. -/
  | compareLeft (other : IsolatedRoot) (cap : Nat)
  /-- A comparison in which the root stands on the right. -/
  | compareRight (other : IsolatedRoot) (cap : Nat)
  | branchingPoint (cap : Nat)
  | setIsRoot (mark : Bool)

namespace Operation

/-- The state of the root after an operation, successful or not. -/
def apply (r : IsolatedRoot) : Operation → IsolatedRoot
  | refine => r.refine
  | refineUntil stop cap => (r.refineUntil stop cap).state
  | refineToPrecision limits => (r.refineToPrecision limits).state
  | signOf ev q cap => (r.signOf ev q cap).state
  | containedIn query cap => (r.containedIn query cap).state
  | compareValue v cap => (r.compareValue v cap).state
  | compareLeft other cap => (r.compare other cap).state.1
  | compareRight other cap => (other.compare r cap).state.2
  | branchingPoint cap => (r.branchingPoint cap).state
  | setIsRoot mark => r.setIsRoot mark

/-- The mark of a root after an operation. -/
def markAfter (mark : Bool) : Operation → Bool
  | setIsRoot new => new
  | _ => mark

end Operation

/-- The state of a root after a sequence of operations. -/
def run (r : IsolatedRoot) (ops : List Operation) : IsolatedRoot :=
  ops.foldl (fun s op => op.apply s) r

theorem run_append_singleton (r : IsolatedRoot) (ops : List Operation) (op : Operation) :
    r.run (ops ++ [op]) = op.apply (r.run ops) := by
  rw [run, List.foldl_append]
  rfl

/-! ## One operation -/

section

variable {P : IsolatedRoot → Prop} {α : ℝ} (hP : Persists α P) {r : IsolatedRoot} (hr : P r)

include hP hr

theorem Persists.signOf (ev : Evaluator) (q : Poly) (cap : Nat) :
    P (r.signOf ev q cap).state := by
  unfold IsolatedRoot.signOf
  split
  · exact hr
  split
  · exact hr
  split
  · exact hr
  · exact hP.search hr (fun s a t _ hst => settles_signOf? hst) cap

/-- What persists is kept by every operation but a change of the mark. -/
theorem Persists.apply (op : Operation) (hop : ∀ mark, op ≠ .setIsRoot mark) :
    P (op.apply r) := by
  cases op with
  | refine => exact hP.refine r hr
  | refineUntil stop cap => exact hP.search hr (fun s a t _ hst => settles_refined? hst) cap
  | refineToPrecision limits => exact hP.search hr (fun s a t _ hst => settles_refined? hst) _
  | signOf ev q cap => exact hP.signOf hr ev q cap
  | containedIn query cap =>
      exact hP.search hr (fun s a t _ hst => settles_containedIn? hst) cap
  | compareValue v cap =>
      exact hP.search hr (fun s a t _ hst => settles_compareValue? hst) cap
  | compareLeft other cap => exact hP.compare_left hr other cap
  | compareRight other cap => exact hP.compare_right hr other cap
  | branchingPoint cap =>
      exact hP.search hr (fun s a t hs hst => settles_branchingPoint? hs hst) cap
  | setIsRoot mark => exact absurd rfl (hop mark)

end

theorem signOf_tracks {r : IsolatedRoot} {α : ℝ} (h : r.Isolates α) (ev : Evaluator) (q : Poly)
    (cap : Nat) : Tracks r α (r.signOf ev q cap).state :=
  (persists_tracks r α).signOf h.tracks ev q cap

theorem setIsRoot_isolates {r : IsolatedRoot} {α : ℝ} (h : r.Isolates α) (mark : Bool) :
    (r.setIsRoot mark).Isolates α :=
  ⟨h.nonzero, h.location⟩

/-- Every operation but a change of the mark leads to a later state of the same
root. -/
theorem Operation.apply_tracks {r : IsolatedRoot} {α : ℝ} (h : r.Isolates α) (op : Operation)
    (hop : ∀ mark, op ≠ .setIsRoot mark) : Tracks r α (op.apply r) :=
  (persists_tracks r α).apply h.tracks op hop

theorem Operation.apply_isolates {r : IsolatedRoot} {α : ℝ} (h : r.Isolates α) (op : Operation) :
    (op.apply r).Isolates α := by
  by_cases hop : ∃ mark, op = .setIsRoot mark
  · obtain ⟨mark, rfl⟩ := hop
    exact setIsRoot_isolates h mark
  · exact (op.apply_tracks h fun mark heq => hop ⟨mark, heq⟩).1

/-- What an operation may change: the interval shrinks, a known value stays, the
polynomial and its chain stay, and the mark is changed on demand only. -/
theorem Operation.apply_changes {r : IsolatedRoot} {α : ℝ} (h : r.Isolates α) (op : Operation) :
    (op.apply r).interval.toSet ⊆ r.interval.toSet
      ∧ (∀ v, r.value? = some v → (op.apply r).value? = some v)
      ∧ (op.apply r).chain = r.chain
      ∧ (op.apply r).isRoot = op.markAfter r.isRoot := by
  by_cases hop : ∃ mark, op = .setIsRoot mark
  · obtain ⟨mark, rfl⟩ := hop
    exact ⟨subset_rfl, fun v hv => hv, rfl, rfl⟩
  · have hfollows := (op.apply_tracks h fun mark heq => hop ⟨mark, heq⟩).2
    -- the other operations leave the mark alone
    have hmark : op.markAfter r.isRoot = r.isRoot := by
      cases op with
      | setIsRoot mark => exact absurd ⟨mark, rfl⟩ hop
      | _ => rfl
    exact ⟨hfollows.interval, hfollows.value, hfollows.chain, hfollows.isRoot.trans hmark.symm⟩

/-! ## Sequences of operations -/

theorem run_isolates {r : IsolatedRoot} {α : ℝ} (h : r.Isolates α) (ops : List Operation) :
    (r.run ops).Isolates α := by
  induction ops using List.reverseRecOn with
  | nil => exact h
  | append_singleton ops op ih =>
      rw [run_append_singleton]
      exact op.apply_isolates ih

theorem chain_run {r : IsolatedRoot} {α : ℝ} (h : r.Isolates α) (ops : List Operation) :
    (r.run ops).chain = r.chain := by
  induction ops using List.reverseRecOn with
  | nil => rfl
  | append_singleton ops op ih =>
      rw [run_append_singleton, (op.apply_changes (run_isolates h ops)).2.2.1, ih]

/-! ## Where roots come from -/

/-- The ways to get a root of `p` from the interval `I`: from the polynomial, from
another of its roots, or in a context, whatever that has met before. -/
def ArisesFrom (p : Poly) (I : Interval) (r : IsolatedRoot) : Prop :=
  ∃ mark, ofPoly p I mark = .ok r
    ∨ (∃ s : IsolatedRoot, s.poly = p ∧ s.sibling I mark = .ok r)
    ∨ ∃ ctx : Context, (ctx.createRoot p I mark).1 = .ok (.root r)

end IsolatedRoot

/-- A context hands out the chain of the polynomial it was asked for, found or
made. -/
theorem Context.intern_eq (ctx : Context) (p : Poly) : (ctx.intern p).1 = .ofPoly p := by
  unfold intern
  split
  · rename_i c hc
    have hsource : c.source = p := by simpa using List.find?_some hc
    rw [← hsource]
    exact c.eq_ofPoly
  · rfl

namespace IsolatedRoot

theorem ArisesFrom.ofChain {p : Poly} {I : Interval} {r : IsolatedRoot} (h : ArisesFrom p I r) :
    ∃ mark, ofChain (.ofPoly p) I mark = .ok r := by
  obtain ⟨mark, h | ⟨s, rfl, h⟩ | ⟨ctx, h⟩⟩ := h
  · exact ⟨mark, h⟩
  · refine ⟨mark, ?_⟩
    rw [sibling, s.chain.eq_ofPoly] at h
    exact h
  · refine ⟨mark, ?_⟩
    unfold Context.createRoot at h
    simp only [ctx.intern_eq p] at h
    cases hmade : IsolatedRoot.ofChain (.ofPoly p) I mark with
    | error e =>
        rw [hmade] at h
        cases h
    | ok s =>
        rw [hmade] at h
        cases h
        rfl

theorem ArisesFrom.isolates {p : Poly} {I : Interval} {r : IsolatedRoot}
    (h : ArisesFrom p I r) :
    r.chain = .ofPoly p ∧ ∃ α, p.realRoots ∩ I.toSet = {α} ∧ r.Isolates α := by
  obtain ⟨mark, hmade⟩ := h.ofChain
  obtain ⟨hchain, -, hα⟩ := isolates_of_ofChain hmade
  exact ⟨hchain, hα⟩

/-- **A root stands for one real number all its life.** Let a root be made from the
polynomial `p` and the interval `I`, in any of the ways there are. Then `p` has
exactly one real root `α` in `I`, and after any sequence of operations, successful
or not and with any caps, the root is in one of two forms: its value is known, it
is `α`, and the interval is the point `[α, α]`; or the value is not known, and the
interval is open, bounded, without `0`, and `α` is the only root of `p` in it. Its
sign is the sign of `α`, and it counts as zero exactly if `α` is. The next
operation shrinks the interval, keeps a known value, the polynomial and the chain,
and changes the mark only if it is a change of the mark. -/
theorem run_keeps_root {p : Poly} {I : Interval} {r : IsolatedRoot} (made : ArisesFrom p I r) :
    ∃ α : ℝ, p.realRoots ∩ I.toSet = {α} ∧ ∀ ops : List Operation,
      ((∃ v, (r.run ops).value? = some v ∧ (v : ℝ) = α ∧ (r.run ops).interval = .point v)
        ∨ ((r.run ops).value? = none ∧ ∃ l u, l < u ∧ (r.run ops).interval = .between l u
          ∧ (0 : ℝ) ∉ (r.run ops).interval.toSet
          ∧ p.realRoots ∩ (r.run ops).interval.toSet = {α}))
      ∧ (r.run ops).chain = .ofPoly p
      ∧ (r.run ops).sign = Sign.ofReal α
      ∧ ((r.run ops).isZero = true ↔ α = 0)
      ∧ ∀ op : Operation,
        (op.apply (r.run ops)).interval.toSet ⊆ (r.run ops).interval.toSet
        ∧ (∀ v, (r.run ops).value? = some v → (op.apply (r.run ops)).value? = some v)
        ∧ (op.apply (r.run ops)).chain = (r.run ops).chain
        ∧ (op.apply (r.run ops)).isRoot = op.markAfter (r.run ops).isRoot := by
  obtain ⟨hchain, α, hα, hiso⟩ := made.isolates
  refine ⟨α, hα, fun ops => ?_⟩
  have hrun : (r.run ops).Isolates α := run_isolates hiso ops
  have hrunChain : (r.run ops).chain = .ofPoly p := (chain_run hiso ops).trans hchain
  have hpoly : (r.run ops).poly = p := by rw [poly, hrunChain, SturmChain.source_ofPoly]
  have hforms := hrun.forms
  rw [hpoly] at hforms
  exact ⟨hforms, hrunChain, sign_eq hrun, isZero_iff hrun, fun op => op.apply_changes hrun⟩

/-- The root of `x² - 2` above `-1`, where the interval given holds `0` and has no upper
end, never changes its sign. -/
theorem run_keeps_sqrt_two :
    ∃ r, ArisesFrom (.ofCoeffs [-2, 0, 1]) ⟨.finite (-1) false, .infinite⟩ r
      ∧ ∃ α : ℝ, (Poly.ofCoeffs [-2, 0, 1]).realRoots
          ∩ (⟨.finite (-1) false, .infinite⟩ : Interval).toSet = {α}
        ∧ ∀ ops, (r.run ops).sign = Sign.ofReal α := by
  have hok : (ofPoly (.ofCoeffs [-2, 0, 1]) ⟨.finite (-1) false, .infinite⟩ false).isOk = true := by
    decide +kernel
  cases hmade : ofPoly (.ofCoeffs [-2, 0, 1]) ⟨.finite (-1) false, .infinite⟩ false with
  | error e =>
      rw [hmade] at hok
      cases hok
  | ok r =>
      have made : ArisesFrom (.ofCoeffs [-2, 0, 1]) ⟨.finite (-1) false, .infinite⟩ r :=
        ⟨false, .inl hmade⟩
      obtain ⟨α, hα, hrun⟩ := run_keeps_root made
      exact ⟨r, made, α, hα, fun ops => (hrun ops).2.2.1⟩

end IsolatedRoot

end AlgebraicReals
