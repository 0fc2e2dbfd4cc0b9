import Mathlib
import AlgebraicReals.Horner.Evaluator
import AlgebraicReals.Proofs.Interval.Nearness
import AlgebraicReals.Proofs.Poly.ToPolynomial

set_option autoImplicit false

/-! # The Horner form and its ranges

A Horner term has a value at real numbers, `HornerTerm.realEval`. The range computed
for a term holds its value at all members of the ranges of the variables, and the Horner
form of a polynomial has the polynomial's values as long as the exponents fit into their
words. Over narrow intervals the ranges are narrow: for every bounded part of the line
there is a factor by which the range is wider than the interval at most. -/

namespace AlgebraicReals

/-! ## Ranges -/

namespace Ranges

@[simp] theorem get_single_self (v : Nat) (I : Interval) : (single v I).get v = I := by
  simp [single, ofFallback, assign, get]

theorem get_single_of_ne {u v : Nat} (h : u ≠ v) (I : Interval) :
    (single v I).get u = .line := by
  have hlookup : List.lookup u [(v, I)] = none := by
    rw [List.lookup_cons, beq_false_of_ne h]
    rfl
  simp [single, ofFallback, assign, get, hlookup]

theorem mem_get_single {v : Nat} {I : Interval} {x : ℝ} (hx : x ∈ I.toSet) (u : Nat) :
    x ∈ ((single v I).get u).toSet := by
  by_cases h : u = v
  · subst h
    rwa [get_single_self]
  · rw [get_single_of_ne h]
    exact ⟨trivial, trivial⟩

end Ranges

namespace HornerTerm

/-! ## Values and ranges of terms -/

/-- The value of a term at real numbers. -/
noncomputable def realEval (ρ : Nat → ℝ) : HornerTerm → ℝ
  | const c => c
  | node v e d i => ρ v ^ e * d.realEval ρ + i.realEval ρ

/-- The variable occurs in the term, with whatever exponent. -/
def Mentions (v : Nat) : HornerTerm → Prop
  | const _ => False
  | node w _ d i => v = w ∨ d.Mentions v ∨ i.Mentions v

theorem realEval_mem_enclose {R : Ranges} {ρ : Nat → ℝ} {t : HornerTerm}
    (hρ : ∀ v, t.Mentions v → ρ v ∈ (R.get v).toSet) : t.realEval ρ ∈ (t.enclose R).toSet := by
  induction t with
  | const c =>
      rw [realEval, enclose, Interval.toSet_point]
      exact Set.mem_singleton _
  | node v e d i ihd ihi =>
      have hv := Interval.pow_mem (hρ v (.inl rfl)) e
      have hd := ihd fun w hw => hρ w (.inr (.inl hw))
      have hi := ihi fun w hw => hρ w (.inr (.inr hw))
      exact Interval.add_mem (Interval.mul_mem hv hd) hi

/-- Every variable of the term is `v`. -/
def OnlyVariable (v : Nat) : HornerTerm → Prop
  | const _ => True
  | node w _ d i => w = v ∧ d.OnlyVariable v ∧ i.OnlyVariable v

/-- The range of a term is wider than that of its only variable by a constant factor at
most, as long as the latter stays within `M`. -/
theorem exists_near_enclose {v : Nat} {t : HornerTerm} (ht : t.OnlyVariable v) (M : Rat) :
    ∃ B L : Rat, ∀ {R : Ranges} {ρ : Nat → ℝ} {c w : Rat}, (∀ u, ρ u ∈ (R.get u).toSet) →
      (R.get v).Near c M w → ∃ d, (t.enclose R).Near d B (L * w) := by
  induction t with
  | const c =>
      refine ⟨|c|, 0, fun {R ρ x w} _ _ => ⟨c, ?_⟩⟩
      rw [zero_mul]
      exact Interval.near_point c
  | node u e d i ihd ihi =>
      obtain ⟨rfl, hd, hi⟩ := ht
      obtain ⟨B₁, L₁, h₁⟩ := ihd hd
      obtain ⟨B₂, L₂, h₂⟩ := ihi hi
      refine ⟨M ^ e * B₁ + B₂, M ^ e * L₁ + B₁ * (e * M ^ (e - 1)) + L₂, ?_⟩
      intro R ρ c w hρ hnear
      obtain ⟨x, hx⟩ := h₁ hρ hnear
      obtain ⟨y, hy⟩ := h₂ hρ hnear
      -- the parts have members, so that none of them is the empty interval
      have hpowMem : ρ u ^ e ∈ ((R.get u).pow e).toSet := Interval.pow_mem (hρ u) e
      have hdMem := realEval_mem_enclose (t := d) fun v _ => hρ v
      have hiMem := realEval_mem_enclose (t := i) fun v _ => hρ v
      have hpow := hnear.pow (Interval.isEmpty_eq_false (hρ u)) e
      have hmul := hpow.mul (Interval.isEmpty_eq_false hpowMem) (Interval.isEmpty_eq_false hdMem) hx
      have hadd := hmul.add (Interval.isEmpty_eq_false (Interval.mul_mem hpowMem hdMem))
        (Interval.isEmpty_eq_false hiMem) hy
      have hwidth : (M ^ e * L₁ + B₁ * (e * M ^ (e - 1)) + L₂) * w
          = M ^ e * (L₁ * w) + B₁ * (e * M ^ (e - 1) * w) + L₂ * w := by ring
      rw [hwidth]
      exact ⟨c ^ e * x + y, hadd⟩

/-! ## The Horner form of a polynomial -/

theorem lt_length_of_factorLowest {v n : Nat} {t : HornerTerm} {p : List Rat}
    (h : factorLowest v p = some (n, t)) : n < p.length := by
  induction p generalizing n t with
  | nil => cases h
  | cons a p ih =>
      rw [List.length_cons]
      cases hp : factorLowest v p with
      | none =>
          simp only [factorLowest, hp] at h
          split at h
          · cases h
          · cases h
            omega
      | some r =>
          obtain ⟨m, s⟩ := r
          have hm := ih hp
          simp only [factorLowest, hp] at h
          split at h
          · cases h
            omega
          · cases h
            omega

theorem onlyVariable_factorLowest {v n : Nat} {t : HornerTerm} {p : List Rat}
    (h : factorLowest v p = some (n, t)) : t.OnlyVariable v := by
  induction p generalizing n t with
  | nil => cases h
  | cons a p ih =>
      cases hp : factorLowest v p with
      | none =>
          simp only [factorLowest, hp] at h
          split at h
          · cases h
          · cases h
            trivial
      | some r =>
          obtain ⟨m, s⟩ := r
          simp only [factorLowest, hp] at h
          split at h
          · cases h
            exact ih hp
          · cases h
            exact ⟨rfl, ih hp, trivial⟩

theorem onlyVariable_ofPoly (v : Nat) (p : Poly) : (ofPoly v p).OnlyVariable v := by
  unfold ofPoly
  split
  · trivial
  · rename_i t h
    exact onlyVariable_factorLowest h
  · rename_i n t h
    exact ⟨rfl, onlyVariable_factorLowest h, trivial⟩

theorem exponentWord_of_lt_length {n m : Nat} (hn : n < m) (hm : m ≤ 2 ^ 32) :
    exponentWord n = n := by
  apply exponentWord_of_lt
  show n < 2 ^ 32
  omega

/-- What splitting off the lowest power means, for as many coefficients as an exponent
can count. -/
theorem realEval_factorLowest (v : Nat) (ρ : Nat → ℝ) {p : List Rat} (hp : p.length ≤ 2 ^ 32) :
    (Poly.ofCoeffs p).realEval (ρ v)
      = match factorLowest v p with
        | none => 0
        | some (n, t) => ρ v ^ n * t.realEval ρ := by
  induction p with
  | nil => exact Poly.realEval_ofCoeffs_nil (ρ v)
  | cons a p ih =>
      rw [List.length_cons] at hp
      have ih := ih (by omega)
      rw [Poly.realEval_ofCoeffs_cons, ih]
      cases hrest : factorLowest v p with
      | none =>
          by_cases ha : a = 0
          · simp [factorLowest, hrest, ha]
          · simp [factorLowest, hrest, ha, realEval]
      | some r =>
          obtain ⟨n, t⟩ := r
          -- the exponent is the distance of two coefficients, which is not wrapped
          have hn : n + 1 < p.length + 1 := Nat.succ_lt_succ (lt_length_of_factorLowest hrest)
          have hword : exponentWord (n + 1) = n + 1 := exponentWord_of_lt_length hn hp
          by_cases ha : a = 0
          · simp only [factorLowest, hrest, ha, if_pos]
            rw [Rat.cast_zero]
            ring
          · simp only [factorLowest, hrest, ha, if_neg, not_false_eq_true, realEval, hword]
            ring

/-- The Horner form has the values of the polynomial. -/
theorem realEval_ofPoly (v : Nat) (ρ : Nat → ℝ) {p : Poly} (hp : p.degree < 2 ^ 32) :
    (ofPoly v p).realEval ρ = p.realEval (ρ v) := by
  have hlength : p.coeffs.length ≤ 2 ^ 32 := by
    rw [Poly.degree] at hp
    omega
  have hvalue := realEval_factorLowest v ρ hlength
  have hp' : (Poly.ofCoeffs p.coeffs).realEval (ρ v) = p.realEval (ρ v) := by
    simp [Poly.realEval, Poly.toPolynomial]
  rw [← hp', hvalue]
  unfold ofPoly
  split
  · rename_i h
    rw [h, realEval, Rat.cast_zero]
  · rename_i t h
    rw [h]
    simp only [pow_zero, one_mul]
  · rename_i n t h
    have hword := exponentWord_of_lt_length (lt_length_of_factorLowest h) hlength
    rw [h, realEval, hword, realEval, Rat.cast_zero, add_zero]

end HornerTerm

/-! ## The range of a polynomial over an interval -/

namespace Poly

theorem realEval_mem_encloseHorner {q : Poly} (hq : q.degree < 2 ^ 32) {I : Interval} {x : ℝ}
    (hx : x ∈ I.toSet) : q.realEval x ∈ (q.encloseHorner I).toSet := by
  unfold encloseHorner
  split
  · rename_i v hv
    rw [Interval.point?_eq_some_iff] at hv
    rw [hv, Interval.toSet_point, Set.mem_singleton_iff] at hx
    rw [hx, realEval_ratCast, Interval.toSet_point]
    exact Set.mem_singleton _
  · rw [← HornerTerm.realEval_ofPoly 0 (fun _ => x) hq]
    exact HornerTerm.realEval_mem_enclose fun v _ => Ranges.mem_get_single hx v

/-- Over intervals within `M`, the range of a polynomial is wider than the interval by a
constant factor at most. -/
theorem exists_near_encloseHorner (q : Poly) (M : Rat) :
    ∃ L : Rat, ∀ {I : Interval}, I.isEmpty = false →
      (⟨.finite (-M) true, .finite M true⟩ : Interval).includes I = true →
      ∃ c B, (q.encloseHorner I).Near c B (L * (I.upper.value - I.lower.value)) := by
  obtain ⟨B, L, h⟩ := HornerTerm.exists_near_enclose (HornerTerm.onlyVariable_ofPoly 0 q) M
  refine ⟨L, fun {I} hI hM => ?_⟩
  rw [encloseHorner]
  cases hpoint : I.point? with
  | none =>
      obtain ⟨x, hx⟩ := Interval.nonempty_toSet hI
      have hnear := Interval.near_of_includes hI hM
      rw [← Ranges.get_single_self 0 I] at hnear
      obtain ⟨d, hd⟩ := h (fun u => Ranges.mem_get_single hx u) hnear
      rw [Ranges.get_single_self] at hd
      exact ⟨d, B, hd⟩
  | some x =>
      -- both the point and the value there have the width `0`
      have hwidth : L * (I.upper.value - I.lower.value) = 0 := by
        rw [(Interval.point?_eq_some_iff I x).mp hpoint]
        exact mul_eq_zero_of_right L (sub_self x)
      rw [hwidth]
      exact ⟨q.eval x, |q.eval x|, Interval.near_point (q.eval x)⟩

end Poly

end AlgebraicReals
