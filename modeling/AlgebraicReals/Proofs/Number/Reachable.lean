import Mathlib
import AlgebraicReals.Proofs.IsolatedRoot.Runs

set_option autoImplicit false

/-! # The numbers there can be

`Number.Reaches a α` says how a number comes about and which real number it is meant
to be: a rational is itself, a root made from an interval is the one root that the
polynomial has there, and no operation changes what a number is. `Number.Denotes` is
the invariant behind it, which speaks about the present state alone. -/

namespace AlgebraicReals.Number

/-! ## Operations -/

/-- An operation on a number, with what it is given besides the number. -/
inductive Operation where
  | setIsRoot (mark : Bool)
  | simplify
  | signOf (ev : Evaluator) (q : Poly) (limits : Limits)
  | branchingPoint (limits : Limits)
  | containedIn (query : Interval) (limits : Limits)
  | refineToPrecision (limits : Limits)
  /-- A comparison in which the number stands on the left. -/
  | compareLeft (other : Number) (limits : Limits)
  /-- A comparison in which the number stands on the right. -/
  | compareRight (other : Number) (limits : Limits)

/-- The number after an operation, successful or not. -/
def Operation.apply (a : Number) : Operation → Number
  | setIsRoot mark => a.setIsRoot mark
  | simplify => a.simplify
  | signOf ev q limits => (a.signOf ev q limits).state
  | branchingPoint limits => (a.branchingPoint limits).state
  | containedIn query limits => (a.containedIn query limits).state
  | refineToPrecision limits => (a.refineToPrecision limits).state
  | compareLeft other limits => (a.compare limits other).state.1
  | compareRight other limits => (other.compare limits a).state.2

/-- The number `a` can arise, and it is meant to be the real number `α`. -/
inductive Reaches : Number → ℝ → Prop where
  | rational (v : Rat) (mark : Bool) : Reaches (.rational v mark) v
  /-- A root, after any operations on it as a root. -/
  | root {p : Poly} {I : Interval} {r : IsolatedRoot} {α : ℝ} (made : r.ArisesFrom p I)
      (only : p.realRoots ∩ I.toSet = {α}) (ops : List IsolatedRoot.Operation) :
      Reaches (.root (r.run ops)) α
  | operation {a : Number} {α : ℝ} (op : Operation) : Reaches a α → Reaches (op.apply a) α

/-! ## The invariant -/

/-- The number stands for the real number `α`. -/
def Denotes (α : ℝ) : Number → Prop
  | .rational v _ => (v : ℝ) = α
  | .root r => r.Isolates α

theorem simplify_denotes {a : Number} {α : ℝ} (h : a.Denotes α) : a.simplify.Denotes α := by
  cases a with
  | rational v mark => exact h
  | root r =>
      have hr : r.Isolates α := h
      cases hloc : r.location with
      | exact v =>
          simp only [simplify, hloc]
          exact hr.value_eq hloc
      | between l u =>
          simp only [simplify, hloc]
          exact h

/-- On a root, an operation on numbers is one on roots. -/
theorem Operation.apply_denotes {a : Number} {α : ℝ} (h : a.Denotes α) (op : Operation) :
    (op.apply a).Denotes α := by
  cases a with
  | rational v mark =>
      cases op with
      | compareLeft other limits => cases other <;> exact h
      | compareRight other limits => cases other <;> exact h
      | _ => exact h
  | root r =>
      have hr : r.Isolates α := h
      cases op with
      | setIsRoot mark => exact IsolatedRoot.setIsRoot_isolates hr mark
      | simplify => exact simplify_denotes h
      | signOf ev q limits =>
          exact IsolatedRoot.Operation.apply_isolates hr (.signOf ev q limits.maxRefinements)
      | branchingPoint limits =>
          exact IsolatedRoot.Operation.apply_isolates hr (.branchingPoint limits.maxRefinements)
      | containedIn query limits =>
          exact IsolatedRoot.Operation.apply_isolates hr (.containedIn query limits.maxRefinements)
      | refineToPrecision limits =>
          exact IsolatedRoot.Operation.apply_isolates hr (.refineToPrecision limits)
      | compareLeft other limits =>
          cases other with
          | rational w mark =>
              exact IsolatedRoot.Operation.apply_isolates hr (.compareValue w limits.maxRefinements)
          | root s =>
              exact IsolatedRoot.Operation.apply_isolates hr (.compareLeft s limits.maxRefinements)
      | compareRight other limits =>
          cases other with
          | rational w mark =>
              exact IsolatedRoot.Operation.apply_isolates hr (.compareValue w limits.maxRefinements)
          | root s =>
              exact IsolatedRoot.Operation.apply_isolates hr (.compareRight s limits.maxRefinements)

/-- Numbers that can arise stand for the real number they are meant to be. -/
theorem Reaches.denotes {a : Number} {α : ℝ} (h : Reaches a α) : a.Denotes α := by
  induction h with
  | rational v mark => exact rfl
  | root made only ops =>
      obtain ⟨-, β, hβ, hiso⟩ := made.isolates
      rw [only, Set.singleton_eq_singleton_iff] at hβ
      subst hβ
      exact IsolatedRoot.run_isolates hiso ops
  | operation op _ ih => exact op.apply_denotes ih

/-- A root as it is made from an interval, with the interval's normal form computed. -/
theorem exists_reaches_of_locate {p : Poly} {I : Interval} {location : Location}
    (hp : p.isZero = false) (hcount : (SturmChain.ofPoly p).countRoots I = 1)
    (hlocate : (SturmChain.ofPoly p).locate I = location) (mark : Bool) :
    ∃ α, (Number.root ⟨.ofPoly p, location, mark, 0⟩).Reaches α := by
  have hmade : IsolatedRoot.ofPoly p I mark = .ok ⟨.ofPoly p, location, mark, 0⟩ := by
    rw [IsolatedRoot.ofPoly, IsolatedRoot.ofChain, SturmChain.source_ofPoly, hp, hcount, hlocate]
    rfl
  have made : IsolatedRoot.ArisesFrom p I _ := ⟨mark, .inl hmade⟩
  obtain ⟨-, α, only, -⟩ := made.isolates
  exact ⟨α, .root made only []⟩

/-- The number that is made from an interval with one root is that root. -/
theorem exists_reaches {p : Poly} {I : Interval} {α : ℝ} (mark : Bool)
    (hok : (IsolatedRoot.ofPoly p I mark).isOk = true) (only : p.realRoots ∩ I.toSet = {α}) :
    ∃ a : Number, a.poly? = some p ∧ a.Reaches α := by
  cases hmade : IsolatedRoot.ofPoly p I mark with
  | error e =>
      rw [hmade] at hok
      cases hok
  | ok r =>
      have made : r.ArisesFrom p I := ⟨mark, .inl hmade⟩
      refine ⟨.root r, ?_, .root made only []⟩
      show some r.poly = some p
      rw [IsolatedRoot.poly, made.isolates.1, SturmChain.source_ofPoly]

/-- The root of `x² - 2` above `0`. -/
theorem exists_reaches_sqrt_two :
    ∃ a : Number, a.poly? = some (.ofCoeffs [-2, 0, 1]) ∧ a.Reaches √2 := by
  have heval (x : ℝ) : (Poly.ofCoeffs [-2, 0, 1]).realEval x = x * x - 2 := by
    simp only [Poly.realEval_ofCoeffs_cons, Poly.realEval_ofCoeffs_nil]
    push_cast
    ring
  have honly : (Poly.ofCoeffs [-2, 0, 1]).realRoots
      ∩ (⟨.finite 0 false, .infinite⟩ : Interval).toSet = {√2} := by
    refine Set.eq_singleton_iff_unique_mem.mpr ⟨⟨?_, ?_, trivial⟩, ?_⟩
    · simp [Poly.mem_realRoots, heval]
    · simp [Endpoint.above]
    · rintro x ⟨hx, hpos, -⟩
      rw [Poly.mem_realRoots, heval] at hx
      have hx0 : (0 : ℝ) < x := by simpa [Endpoint.above] using hpos
      exact ((Real.sqrt_eq_iff_mul_self_eq_of_pos hx0).mpr (by linarith)).symm
  exact exists_reaches false (by decide +kernel) honly

end AlgebraicReals.Number
