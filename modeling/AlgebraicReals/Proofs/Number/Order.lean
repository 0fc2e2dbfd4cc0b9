import Mathlib
import AlgebraicReals.Proofs.IsolatedRoot.Order
import AlgebraicReals.Proofs.Number.Reachable

set_option autoImplicit false

/-! # Comparison decides the order

Comparing two numbers, however they are held, answers with the order of the real
numbers they stand for. Equal numbers cost no bisection, and different ones are told
apart once the cap allows for enough bisections to make the intervals narrower than
the distance. -/

namespace AlgebraicReals.Number

/-- The width of the interval around a number, `0` if its value is known. -/
def width (a : Number) : Rat :=
  (a.interval?.bind Interval.width?).getD 0

theorem width_root (r : IsolatedRoot) : (root r).width = r.width := rfl

theorem width_rational (v : Rat) (mark : Bool) : (rational v mark).width = 0 := rfl

section

variable {a b : Number} {α β : ℝ} (ha : a.Denotes α) (hb : b.Denotes β) (limits : Limits)

include ha hb

theorem compare_answer {o : Ordering} (ho : (a.compare limits b).answer = .ok o) :
    o = cmp α β := by
  cases a with
  | rational v m =>
      have hv : (v : ℝ) = α := ha
      cases b with
      | rational w n =>
          have hw : (w : ℝ) = β := hb
          cases ho
          rw [Rational.order_eq_cmp, hv, hw]
      | root s =>
          have hs : s.Isolates β := hb
          cases hans : (s.compareValue v limits.maxRefinements).answer with
          | error e =>
              simp only [compare, Outcome.mapState, Outcome.map, hans, Except.map] at ho
              cases ho
          | ok o' =>
              simp only [compare, Outcome.mapState, Outcome.map, hans, Except.map] at ho
              cases ho
              rw [IsolatedRoot.compareValue_answer hs v hans, cmp_swap, hv]
  | root r =>
      have hr : r.Isolates α := ha
      cases b with
      | rational w n =>
          have hw : (w : ℝ) = β := hb
          rw [← hw]
          exact IsolatedRoot.compareValue_answer hr w ho
      | root s => exact IsolatedRoot.compare_answer hr hb ho

theorem compare_of_eq (h : α = β) :
    (a.compare limits b).answer = .ok .eq ∧ (a.compare limits b).steps = 0
      ∧ (a.compare limits b).state.1.refinements = a.refinements
      ∧ (a.compare limits b).state.2.refinements = b.refinements := by
  cases a with
  | rational v m =>
      have hv : (v : ℝ) = α := ha
      cases b with
      | rational w n =>
          have hw : (w : ℝ) = β := hb
          have hvw : v = w := Rat.cast_injective (hv.trans (h.trans hw.symm))
          subst hvw
          exact ⟨congrArg Except.ok (Rational.order_self v), rfl, rfl, rfl⟩
      | root s =>
          have hs : s.Isolates β := hb
          obtain ⟨t, ht, hst⟩ :=
            IsolatedRoot.compareValue_of_eq hs v (h.symm.trans hv.symm) limits.maxRefinements
          simp only [compare, ht]
          exact ⟨rfl, rfl, rfl, hst.refinements_eq⟩
  | root r =>
      have hr : r.Isolates α := ha
      cases b with
      | rational w n =>
          have hw : (w : ℝ) = β := hb
          obtain ⟨t, ht, hrt⟩ :=
            IsolatedRoot.compareValue_of_eq hr w (h.trans hw.symm) limits.maxRefinements
          simp only [compare, ht]
          exact ⟨rfl, rfl, hrt.refinements_eq, rfl⟩
      | root s =>
          have hs : s.Isolates β := hb
          obtain ⟨r', s', heq, hr', hs'⟩ :=
            IsolatedRoot.compare_of_eq hr hs h limits.maxRefinements
          simp only [compare, heq]
          exact ⟨rfl, rfl, hr'.refinements_eq, hs'.refinements_eq⟩

theorem compare_ok {n : Nat} (hw : ((a.width : ℝ) + b.width) / 2 ^ n ≤ |α - β|)
    (hn : 2 * n ≤ limits.maxRefinements) : ∃ o, (a.compare limits b).answer = .ok o := by
  cases a with
  | rational v m =>
      have hv : (v : ℝ) = α := ha
      cases b with
      | rational w n => exact ⟨_, rfl⟩
      | root s =>
          have hs : s.Isolates β := hb
          rw [width_rational, width_root, Rat.cast_zero, zero_add, ← hv, abs_sub_comm] at hw
          have hcap : n ≤ limits.maxRefinements := by omega
          obtain ⟨o, ho⟩ := IsolatedRoot.compareValue_ok hs v hw hcap
          refine ⟨o.swap, ?_⟩
          simp only [compare, Outcome.mapState, Outcome.map, ho, Except.map]
  | root r =>
      have hr : r.Isolates α := ha
      cases b with
      | rational w n =>
          have hw' : (w : ℝ) = β := hb
          rw [width_rational, width_root, Rat.cast_zero, add_zero, ← hw'] at hw
          exact IsolatedRoot.compareValue_ok hr w hw (by omega)
      | root s => exact IsolatedRoot.compare_ok hr hb hw hn

end

/-- **Comparison decides the order of real algebraic numbers.** For numbers that can
arise, rational or roots, known exactly or not, with any history and any limits: an
answer is the order of the real numbers; equal numbers are answered as equal without
any bisection, whatever the cap; and for different numbers, if bisecting both widths
`n` times brings them within the distance of the numbers, a cap of `2·n` is enough
for an answer. -/
theorem compare_decides_order {a b : Number} {α β : ℝ} (ha : a.Reaches α) (hb : b.Reaches β)
    (limits : Limits) :
    (∀ o, (a.compare limits b).answer = .ok o → o = cmp α β)
      ∧ (α = β → (a.compare limits b).answer = .ok .eq ∧ (a.compare limits b).steps = 0
        ∧ (a.compare limits b).state.1.refinements = a.refinements
        ∧ (a.compare limits b).state.2.refinements = b.refinements)
      ∧ ∀ n, α ≠ β → ((a.width : ℝ) + b.width) / 2 ^ n ≤ |α - β| →
        2 * n ≤ limits.maxRefinements → ∃ o, (a.compare limits b).answer = .ok o := by
  refine ⟨fun o ho => ?_, fun h => ?_, fun n _ hw hn => ?_⟩
  · exact compare_answer ha.denotes hb.denotes limits ho
  · exact compare_of_eq ha.denotes hb.denotes limits h
  · exact compare_ok ha.denotes hb.denotes limits hw hn

/-- The root of `x² - 2` above `0` and the root of `x⁴ - 4` from `1` on are the same
number, and this is found without bisection. -/
theorem compare_decides_order_sqrt_two :
    ∃ a b : Number, a.Reaches √2 ∧ b.Reaches √2
      ∧ a.poly? = some (.ofCoeffs [-2, 0, 1]) ∧ b.poly? = some (.ofCoeffs [-4, 0, 0, 0, 1])
      ∧ ∀ limits, (a.compare limits b).answer = .ok .eq ∧ (a.compare limits b).steps = 0 := by
  have heval (x : ℝ) :
      (Poly.ofCoeffs [-4, 0, 0, 0, 1]).realEval x = (x * x - 2) * (x * x + 2) := by
    simp only [Poly.realEval_ofCoeffs_cons, Poly.realEval_ofCoeffs_nil]
    push_cast
    ring
  have honly : (Poly.ofCoeffs [-4, 0, 0, 0, 1]).realRoots
      ∩ (⟨.finite 1 true, .infinite⟩ : Interval).toSet = {√2} := by
    refine Set.eq_singleton_iff_unique_mem.mpr ⟨⟨?_, ?_, trivial⟩, ?_⟩
    · simp [Poly.mem_realRoots, heval]
    · simp [Endpoint.above]
    · rintro x ⟨hx, hpos, -⟩
      rw [Poly.mem_realRoots, heval] at hx
      have hx1 : (1 : ℝ) ≤ x := by simpa [Endpoint.above] using hpos
      have hsq : x * x - 2 = 0 := (mul_eq_zero.mp hx).resolve_right (by nlinarith)
      exact ((Real.sqrt_eq_iff_mul_self_eq_of_pos (by linarith)).mpr (by linarith)).symm
  obtain ⟨a, hpa, ha⟩ := exists_reaches_sqrt_two
  obtain ⟨b, hpb, hb⟩ := exists_reaches false (by decide +kernel) honly
  refine ⟨a, b, ha, hb, hpa, hpb, fun limits => ?_⟩
  obtain ⟨hanswer, hsteps, -⟩ := (compare_decides_order ha hb limits).2.1 rfl
  exact ⟨hanswer, hsteps⟩

end AlgebraicReals.Number
