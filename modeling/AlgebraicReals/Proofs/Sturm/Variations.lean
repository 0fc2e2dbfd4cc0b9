import Mathlib
import AlgebraicReals.SturmChain
import AlgebraicReals.Proofs.Poly.Euclid
import AlgebraicReals.Proofs.RealSign

set_option autoImplicit false

/-! # Sign changes along a Sturm chain

How the number of sign changes behaves when the point moves a little. An inner
polynomial of the chain may vanish, but its two neighbours then have opposite
signs, so that between them there is one sign change whatever the sign in the
middle is. Only the head of the chain matters: passing one of its roots from left
to right, its sign goes from opposite to equal to that of its derivative, and one
sign change is lost.

Nothing is assumed about the chain but that two consecutive members are coprime,
which each division hands on to the next pair. -/

namespace AlgebraicReals

open Polynomial Filter Topology

/-! ## Counting sign changes -/

@[simp] theorem variations_zero_cons (l : List Sign) :
    variations (.zero :: l) = variations l := by
  simp [variations]

theorem variations_cons_cons {s t : Sign} (hs : s ≠ .zero) (ht : t ≠ .zero) (l : List Sign) :
    variations (s :: t :: l) = (if s = t then 0 else 1) + variations (t :: l) := by
  simp [variations, hs, ht, signChanges]

theorem variations_singleton (s : Sign) : variations [s] = 0 := by
  cases s <;> rfl

/-- Between opposite signs there is one sign change, whatever stands in the
middle. -/
theorem variations_opposite {s : Sign} (hs : s ≠ .zero) (t : Sign) (l : List Sign) :
    variations (s :: t :: -s :: l) = 1 + variations (-s :: l) := by
  have hns : -s ≠ .zero := fun h => hs (Sign.neg_eq_zero_iff.mp h)
  have hss : s ≠ -s := Sign.ne_neg_self hs
  by_cases ht : t = .zero
  · subst ht
    have hdrop : variations (s :: .zero :: -s :: l) = variations (s :: -s :: l) := by
      simp [variations, hs, hns]
    rw [hdrop, variations_cons_cons hs hns, if_neg hss]
  · rw [variations_cons_cons hs ht, variations_cons_cons ht hns]
    by_cases hst : s = t
    · subst hst
      rw [if_pos rfl, if_neg hss, zero_add]
    · have htn : t = -s := by
        cases s <;> cases t <;> first | rfl | exact absurd rfl ‹_›
      rw [if_neg hst, if_pos htn, zero_add]

/-! ## Signs of a list of polynomials -/

/-- The signs of the polynomials at a real number. -/
noncomputable def signsAt (ps : List Poly) (x : ℝ) : List Sign :=
  ps.map fun p => Sign.ofReal (p.realEval x)

theorem signsAt_cons (p : Poly) (ps : List Poly) (x : ℝ) :
    signsAt (p :: ps) x = Sign.ofReal (p.realEval x) :: signsAt ps x := rfl

theorem negatedRemainders_of_isZero (p : Poly) {q : Poly} (hq : q.isZero = true) :
    negatedRemainders p q = [] := by
  rw [negatedRemainders, if_pos hq]

theorem negatedRemainders_cons (p : Poly) {q : Poly} (hq : q.isZero = false) :
    negatedRemainders p q = q :: negatedRemainders q (-(p % q)) := by
  rw [negatedRemainders, if_neg (by simp [hq])]

/-- A division hands coprimality on to divisor and negated remainder. -/
theorem isCoprime_neg_mod {p q : Poly} (hq : q.isZero = false)
    (h : IsCoprime p.toPolynomial q.toPolynomial) :
    IsCoprime q.toPolynomial (-(p % q)).toPolynomial := by
  rw [Poly.toPolynomial_div_add_mod p q hq, add_comm] at h
  rw [Poly.toPolynomial_neg, IsCoprime.neg_right_iff]
  exact (IsCoprime.of_add_mul_right_left h).symm

/-- Coprime polynomials have no common root. -/
theorem realEval_ne_zero_of_isCoprime {p q : Poly}
    (h : IsCoprime p.toPolynomial q.toPolynomial) {x : ℝ} (hp : p.realEval x = 0) :
    q.realEval x ≠ 0 := by
  intro hq
  obtain ⟨a, b, hab⟩ := h
  have h1 := congrArg (aeval x) hab
  rw [map_add, map_mul, map_mul, map_one] at h1
  have hp : aeval x p.toPolynomial = 0 := hp
  have hq : aeval x q.toPolynomial = 0 := hq
  rw [hp, hq, mul_zero, mul_zero, add_zero] at h1
  exact zero_ne_one h1

/-- At a root of the divisor the dividend and the negated remainder are opposite
numbers. -/
theorem realEval_neg_mod {p q : Poly} (hq : q.isZero = false) {x : ℝ} (hx : q.realEval x = 0) :
    (-(p % q)).realEval x = -p.realEval x := by
  have hdiv := congrArg (aeval x) (Poly.toPolynomial_div_add_mod p q hq)
  have hx : aeval x q.toPolynomial = 0 := hx
  rw [map_add, map_mul, hx, mul_zero, zero_add] at hdiv
  rw [Poly.realEval, Poly.toPolynomial_neg, map_neg, ← hdiv]
  rfl

/-! ## Around a point -/

/-- A member between two others of opposite signs counts for one change, whatever its own
sign is. -/
theorem variations_of_opposite {p q r : Poly} (hr : r.isZero = false) {x : ℝ} {s : Sign}
    (hs : s ≠ .zero) (hpx : Sign.ofReal (p.realEval x) = s)
    (hrx : Sign.ofReal (r.realEval x) = -s) :
    variations (signsAt (p :: q :: negatedRemainders q r) x)
      = 1 + variations (signsAt (negatedRemainders q r) x) := by
  rw [negatedRemainders_cons q hr]
  simp only [signsAt_cons]
  rw [hpx, hrx]
  exact variations_opposite hs _ _

/-- **Sign changes are locally constant away from the head's roots.** For coprime
`p` and `q` the signs along `p, q, …` change as often near a point as at the point
itself, if `p` does not vanish there; if it does, the same holds from `q` on. -/
theorem eventually_variations_eq (c : ℝ) (p q : Poly)
    (h : IsCoprime p.toPolynomial q.toPolynomial) :
    (p.realEval c ≠ 0 → ∀ᶠ x in 𝓝 c,
      variations (signsAt (p :: negatedRemainders p q) x)
        = variations (signsAt (p :: negatedRemainders p q) c))
    ∧ (p.realEval c = 0 → ∀ᶠ x in 𝓝 c,
      variations (signsAt (negatedRemainders p q) x)
        = variations (signsAt (negatedRemainders p q) c)) := by
  -- The two parts are proved together: where an inner member vanishes, the
  -- argument leaps over it to the second part for the next pair.
  induction p, q using negatedRemainders.induct with
  | case1 p q hq =>
      rw [negatedRemainders_of_isZero p hq]
      refine ⟨fun _ => Eventually.of_forall fun x => ?_, fun _ => Eventually.of_forall fun x => rfl⟩
      exact (variations_singleton _).trans (variations_singleton _).symm
  | case2 p q hq ih =>
      have hq : q.isZero = false := Bool.eq_false_iff.mpr hq
      obtain ⟨ih, ih'⟩ := ih (isCoprime_neg_mod hq h)
      rw [negatedRemainders_cons p hq]
      refine ⟨fun hp => ?_, fun hp => ih (realEval_ne_zero_of_isCoprime h hp)⟩
      have hps : Sign.ofReal (p.realEval c) ≠ .zero := fun h => hp (Sign.ofReal_eq_zero_iff.mp h)
      by_cases hqc : q.realEval c = 0
      · set r := -(p % q) with hr
        have hrc : r.realEval c = -p.realEval c := realEval_neg_mod hq hqc
        have hrne : r.realEval c ≠ 0 := by
          rw [hrc]
          exact neg_ne_zero.mpr hp
        have hr0 : r.isZero = false := Poly.isZero_of_realEval_ne_zero hrne
        have hrs : Sign.ofReal (r.realEval c) = -Sign.ofReal (p.realEval c) := by
          rw [hrc, Sign.ofReal_neg]
        -- near `c` the signs of `p` and `r` are those at `c`, and opposite
        filter_upwards [ih' hqc, p.eventually_sign_eq hp, r.eventually_sign_eq hrne]
          with x hx hpx hrx
        rw [variations_of_opposite hr0 hps hpx (hrx.trans hrs),
          variations_of_opposite hr0 hps rfl hrs, hx]
      · have hqs : Sign.ofReal (q.realEval c) ≠ .zero :=
          fun h => hqc (Sign.ofReal_eq_zero_iff.mp h)
        filter_upwards [ih hqc, p.eventually_sign_eq hp, q.eventually_sign_eq hqc]
          with x hx hpx hqx
        simp only [signsAt_cons] at hx ⊢
        rw [hqx] at hx
        rw [hpx, hqx, variations_cons_cons hps hqs, variations_cons_cons hps hqs, hx]

/-- **What happens at a root of the head.** Let `p` be coprime to its derivative.
Left of a root the signs along the chain change once more often than at the root,
right of it as often. -/
theorem eventually_variations_at_root (p : Poly)
    (h : IsCoprime p.toPolynomial p.derivative.toPolynomial) {c : ℝ} (hc : p.realEval c = 0) :
    (∀ᶠ x in 𝓝[<] c, variations (signsAt (p :: negatedRemainders p p.derivative) x)
      = variations (signsAt (p :: negatedRemainders p p.derivative) c) + 1)
    ∧ ∀ᶠ x in 𝓝[>] c, variations (signsAt (p :: negatedRemainders p p.derivative) x)
      = variations (signsAt (p :: negatedRemainders p p.derivative) c) := by
  set q := p.derivative with hq
  have hqc : q.realEval c ≠ 0 := realEval_ne_zero_of_isCoprime h hc
  have hq0 : q.isZero = false := Poly.isZero_of_realEval_ne_zero hqc
  have hqs : Sign.ofReal (q.realEval c) ≠ .zero := fun h => hqc (Sign.ofReal_eq_zero_iff.mp h)
  have hrest := (eventually_variations_eq c p q h).2 hc
  have hat : variations (signsAt (p :: negatedRemainders p q) c)
      = variations (signsAt (negatedRemainders p q) c) := by
    rw [signsAt_cons, hc, Sign.ofReal_zero, variations_zero_cons]
  have hside := p.eventually_mul_derivative_pos hc hqc
  have hqev := q.eventually_sign_eq hqc
  rw [hat]
  constructor
  · filter_upwards [nhdsWithin_le_nhds hrest, nhdsWithin_le_nhds hside, nhdsWithin_le_nhds hqev,
      self_mem_nhdsWithin] with x hx hpx hqx hlt
    have hlt : x < c := hlt
    have hneg : 0 < -p.realEval x * q.realEval c := by
      rw [neg_mul]
      exact neg_pos.mpr (neg_of_mul_pos_left (hpx hlt.ne) (sub_nonpos.mpr hlt.le))
    have hps : Sign.ofReal (p.realEval x) = -Sign.ofReal (q.realEval c) := by
      rw [← Sign.ofReal_eq_of_mul_pos hneg, Sign.ofReal_neg, Sign.neg_neg]
    rw [← hx, negatedRemainders_cons p hq0]
    simp only [signsAt_cons]
    rw [hps, hqx, variations_cons_cons (fun h => hqs (Sign.neg_eq_zero_iff.mp h)) hqs,
      if_neg (Sign.ne_neg_self hqs).symm, add_comm]
  · filter_upwards [nhdsWithin_le_nhds hrest, nhdsWithin_le_nhds hside, nhdsWithin_le_nhds hqev,
      self_mem_nhdsWithin] with x hx hpx hqx hgt
    have hgt : c < x := hgt
    have hpos : 0 < p.realEval x * q.realEval c :=
      pos_of_mul_pos_left (hpx hgt.ne') (sub_nonneg.mpr hgt.le)
    rw [← hx, negatedRemainders_cons p hq0]
    simp only [signsAt_cons]
    rw [Sign.ofReal_eq_of_mul_pos hpos, hqx, variations_cons_cons hqs hqs, if_pos rfl, zero_add]

end AlgebraicReals
