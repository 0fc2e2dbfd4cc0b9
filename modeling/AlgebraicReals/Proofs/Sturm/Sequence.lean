import Mathlib
import AlgebraicReals.Proofs.Poly.SquareFree
import AlgebraicReals.Proofs.Sturm.Variations

set_option autoImplicit false

/-! # The construction of a Sturm chain

A Sturm chain is made in rounds. It starts as the square-free part and its derivative, each
round adds the negated remainder of the last two members, and the rounds are over when a
division leaves no remainder. No number of rounds is set beforehand. They end because the
degree of the last member drops with each of them, and the members are then those of
`SturmChain.ofPoly` (`PartialChain.Sound.ends`).

A round keeps two things. The list is a Sturm sequence (`IsSturmSequence`): its degrees
decrease, neighbours have no common zero, and around a zero of an inner member the signs are
opposite. And its last two members are coprime. The first pair is, because the square-free part
has no multiple root, and a division hands coprimality on; so a last member that divides the one
before it is a unit, that is, a number other than zero. -/

namespace AlgebraicReals

open Polynomial

/-! ## Degrees -/

namespace Poly

theorem isZero_neg (p : Poly) : (-p).isZero = p.isZero := by
  rw [Bool.eq_iff_iff, ← toPolynomial_eq_zero_iff, ← toPolynomial_eq_zero_iff, toPolynomial_neg,
    neg_eq_zero]

/-- A remainder that is not zero has a smaller degree than the divisor. -/
theorem degree_neg_mod_lt {p q : Poly} (hq : q.isZero = false) (hr : (p % q).isZero = false) :
    (-(p % q)).degree < q.degree := by
  have hlt := length_coeffs_mod_lt p q hq
  have hle := length_coeffs_neg_le (p % q)
  have hpos : 0 < (p % q).coeffs.length := by
    rw [List.length_pos_iff]
    simpa [isZero] using hr
  rw [degree, degree]
  omega

/-- Decreasing degrees leave room for as many members as the first degree allows. -/
theorem length_le_of_degrees {p : Poly} {ps : List Poly}
    (h : (p :: ps).Pairwise fun q r => r.degree < q.degree) :
    (p :: ps).length ≤ p.degree + 1 := by
  induction ps generalizing p with
  | nil => simp
  | cons q qs ih =>
      rw [List.pairwise_cons] at h
      have hlt := h.1 q List.mem_cons_self
      have hle := ih h.2
      rw [List.length_cons]
      omega

section

variable {s : Poly} (hs : s.isConstant = false)

include hs

theorem degree_ne_zero : s.degree ≠ 0 := by
  intro h
  rw [(isConstant_iff s).mpr h] at hs
  exact Bool.noConfusion hs

theorem derivative_isZero : s.derivative.isZero = false := by
  rw [← Bool.not_eq_true, ← toPolynomial_eq_zero_iff, toPolynomial_derivative]
  intro h
  have hdegree := Polynomial.derivative_eq_zero.mp h
  rw [natDegree_toPolynomial] at hdegree
  exact degree_ne_zero hs hdegree

theorem degree_derivative_lt : s.derivative.degree < s.degree := by
  have hdegree : s.toPolynomial.natDegree ≠ 0 := by
    rw [natDegree_toPolynomial]
    exact degree_ne_zero hs
  have hlt := natDegree_derivative_lt hdegree
  rwa [← toPolynomial_derivative, natDegree_toPolynomial, natDegree_toPolynomial] at hlt

end

/-- A unit of the polynomial ring is a number other than zero. -/
theorem eq_const_of_isUnit {p : Poly} (hp : IsUnit p.toPolynomial) :
    ∃ a : Rat, a ≠ 0 ∧ p = const a := by
  have hdegree : p.degree = 0 := by
    rw [← natDegree_toPolynomial]
    exact natDegree_eq_zero_of_isUnit hp
  have hC : p.toPolynomial = C p.constantTerm :=
    toPolynomial_of_isConstant ((isConstant_iff p).mpr hdegree)
  refine ⟨p.constantTerm, ?_, ?_⟩
  · intro h0
    rw [hC, h0, C_0] at hp
    exact not_isUnit_zero hp
  · apply toPolynomial_injective
    rw [hC, toPolynomial_const]

/-- The square-free part of zero is zero, and so a number. -/
theorem isZero_of_squareFreePart {p : Poly} (hp : p.squareFreePart.isConstant = false) :
    p.isZero = false := by
  refine isZero_eq_false_of_ne ?_
  rintro rfl
  rw [squareFreePart_zero] at hp
  exact Bool.noConfusion hp

end Poly

/-! ## Sturm sequences -/

/-- The properties that counting roots by sign changes rests on. `[q, r] <:+: ps` says that `r`
comes right after `q` in the list. -/
structure IsSturmSequence (ps : List Poly) : Prop where
  degrees : ps.Pairwise fun q r => r.degree < q.degree
  apart : ∀ q r, [q, r] <:+: ps → ∀ x : ℝ, ¬(q.realEval x = 0 ∧ r.realEval x = 0)
  /-- Where an inner member vanishes its neighbours have opposite signs, neither of them
  zero. -/
  opposite : ∀ q r t, [q, r, t] <:+: ps →
    ∀ x : ℝ, r.realEval x = 0 → q.realEval x * t.realEval x < 0

/-- With one more entry at the end, there is only one more part of a given length. -/
theorem infix_concat {α : Type*} {m l k : List α} {t : α} (hlength : m.length = k.length + 1)
    (h : m <:+: l ++ k ++ [t]) : m <:+: l ++ k ∨ m = k ++ [t] := by
  rcases List.infix_concat_iff.mp h with h | h
  · right
    have hend : k ++ [t] <:+ l ++ k ++ [t] := by
      rw [List.append_assoc]
      exact List.suffix_append l (k ++ [t])
    have hlength' : m.length = (k ++ [t]).length := by
      rw [hlength, List.length_append, List.length_singleton]
    exact (List.suffix_of_suffix_length_le h hend hlength'.le).eq_of_length hlength'
  · exact .inl h

namespace IsSturmSequence

/-- A pair of polynomials. -/
theorem pair {a b : Poly} (hdegree : b.degree < a.degree)
    (hapart : ∀ x : ℝ, ¬(a.realEval x = 0 ∧ b.realEval x = 0)) : IsSturmSequence [a, b] where
  degrees := by simpa using hdegree
  apart := by
    intro q r h
    obtain ⟨rfl, rfl⟩ : q = a ∧ r = b := by simpa using h.eq_of_length rfl
    exact hapart
  opposite := by
    intro q r t h
    have hle := h.length_le
    simp at hle

/-- The last member has the smallest degree. -/
theorem degree_le {l : List Poly} {b : Poly} (h : IsSturmSequence (l ++ [b])) :
    ∀ q ∈ l ++ [b], b.degree ≤ q.degree := by
  intro q hq
  rcases List.mem_append.mp hq with hq | hq
  · have hlt := (List.pairwise_append.mp h.degrees).2.2 q hq b List.mem_cons_self
    exact hlt.le
  · rw [List.mem_singleton.mp hq]

/-- One member more: it is compared with the last two only. -/
theorem concat {l : List Poly} {a b t : Poly} (h : IsSturmSequence (l ++ [a, b]))
    (hdegree : t.degree < b.degree)
    (hapart : ∀ x : ℝ, ¬(b.realEval x = 0 ∧ t.realEval x = 0))
    (hopposite : ∀ x : ℝ, b.realEval x = 0 → a.realEval x * t.realEval x < 0) :
    IsSturmSequence (l ++ [a, b] ++ [t]) := by
  have hsplit : l ++ [a, b] = l ++ [a] ++ [b] := by simp
  refine ⟨?_, ?_, ?_⟩
  · refine List.pairwise_append.mpr ⟨h.degrees, List.pairwise_singleton _ t, ?_⟩
    intro q hq r hr
    rw [hsplit] at h hq
    rw [List.mem_singleton.mp hr]
    exact hdegree.trans_le (h.degree_le q hq)
  · intro q r hqr
    rw [hsplit] at h hqr
    rcases infix_concat rfl hqr with hqr | hqr
    · exact h.apart q r hqr
    · obtain ⟨rfl, rfl⟩ : q = b ∧ r = t := by simpa using hqr
      exact hapart
  · intro q r u hqru
    rcases infix_concat rfl hqru with hqru | hqru
    · exact h.opposite q r u hqru
    · obtain ⟨rfl, rfl, rfl⟩ : q = a ∧ r = b ∧ u = t := by simpa using hqru
      exact hopposite

end IsSturmSequence

/-! ## Rounds of the construction -/

/-- A Sturm chain under construction. There are always two members for the next division. -/
structure PartialChain where
  earlier : List Poly
  dividend : Poly
  divisor : Poly

namespace PartialChain

def members (c : PartialChain) : List Poly :=
  c.earlier ++ [c.dividend, c.divisor]

/-- The first two members of the chain of a square-free polynomial. -/
def start (s : Poly) : PartialChain :=
  ⟨[], s, s.derivative⟩

/-- One round: the negated remainder becomes the last member. There is no further round if
there is no remainder. -/
def extend? (c : PartialChain) : Option PartialChain :=
  let r := c.dividend % c.divisor
  if r.isZero then none else some ⟨c.earlier ++ [c.dividend], c.divisor, -r⟩

/-- A number of rounds, if there are as many. -/
def rounds? : Nat → PartialChain → Option PartialChain
  | 0, c => some c
  | n + 1, c => c.extend?.bind (rounds? n)

/-- The members after all rounds, those to come taken from the definition of the chain. -/
def completed (c : PartialChain) : List Poly :=
  c.earlier ++ c.dividend :: negatedRemainders c.dividend c.divisor

variable {c c' : PartialChain}

theorem extend?_eq_none_iff : c.extend? = none ↔ (c.dividend % c.divisor).isZero = true := by
  simp [extend?]

theorem extend?_eq_some_iff :
    c.extend? = some c'
      ↔ (c.dividend % c.divisor).isZero = false
        ∧ c' = ⟨c.earlier ++ [c.dividend], c.divisor, -(c.dividend % c.divisor)⟩ := by
  rw [extend?]
  cases hr : (c.dividend % c.divisor).isZero with
  | true => simp
  | false => simp [eq_comm]

/-- What every round keeps. -/
structure Sound (c : PartialChain) : Prop where
  sequence : IsSturmSequence c.members
  coprime : IsCoprime c.dividend.toPolynomial c.divisor.toPolynomial
  divisor_ne : c.divisor.isZero = false

/-- **One round** keeps the properties, lowers the degree of the last member, and does not change
what the chain will be. -/
theorem Sound.extend (h : c.Sound) (hc : c.extend? = some c') :
    c'.Sound ∧ c'.divisor.degree < c.divisor.degree ∧ c'.completed = c.completed := by
  obtain ⟨hr, rfl⟩ := extend?_eq_some_iff.mp hc
  have hcoprime := isCoprime_neg_mod h.divisor_ne h.coprime
  have hdegree := Poly.degree_neg_mod_lt h.divisor_ne hr
  refine ⟨⟨?_, hcoprime, ?_⟩, hdegree, ?_⟩
  · have hmembers : IsSturmSequence (c.members ++ [-(c.dividend % c.divisor)]) := by
      refine h.sequence.concat hdegree ?_ ?_
      · rintro x ⟨hx, hrx⟩
        exact realEval_ne_zero_of_isCoprime hcoprime hx hrx
      · intro x hx
        -- the remainder takes the value of the dividend there, and it is not zero
        have hne : c.dividend.realEval x ≠ 0 := realEval_ne_zero_of_isCoprime h.coprime.symm hx
        rw [realEval_neg_mod h.divisor_ne hx, mul_neg]
        exact neg_neg_of_pos (mul_self_pos.mpr hne)
    simpa [members] using hmembers
  · rw [Poly.isZero_neg]
    exact hr
  · rw [completed, completed, negatedRemainders_cons c.dividend h.divisor_ne]
    simp

/-- **The end of the rounds.** All members are there, and the last one is a number. -/
theorem Sound.completed_eq (h : c.Sound) (hc : c.extend? = none) :
    c.completed = c.members ∧ ∃ a : Rat, a ≠ 0 ∧ c.divisor = Poly.const a := by
  have hr := extend?_eq_none_iff.mp hc
  have hneg : (-(c.dividend % c.divisor)).isZero = true := by
    rw [Poly.isZero_neg]
    exact hr
  constructor
  · rw [completed, negatedRemainders_cons c.dividend h.divisor_ne,
      negatedRemainders_of_isZero c.divisor hneg, members]
  · -- the last member is coprime to zero
    have hcoprime := isCoprime_neg_mod h.divisor_ne h.coprime
    rw [(Poly.toPolynomial_eq_zero_iff _).mpr hneg, isCoprime_zero_right] at hcoprime
    exact Poly.eq_const_of_isUnit hcoprime

/-- **The rounds end**, after no more of them than the degree of the last member. -/
theorem Sound.ends (h : c.Sound) :
    ∃ n ≤ c.divisor.degree, ∃ c' : PartialChain,
      c.rounds? n = some c' ∧ c'.extend? = none ∧ c'.Sound ∧ c'.completed = c.completed := by
  -- by induction on the degree of the last member, which every round lowers
  induction hd : c.divisor.degree using Nat.strong_induction_on generalizing c with
  | _ d ih =>
      cases hc : c.extend? with
      | none => exact ⟨0, Nat.zero_le d, c, rfl, hc, h, rfl⟩
      | some c₁ =>
          obtain ⟨h₁, hlt, hcompleted⟩ := h.extend hc
          rw [hd] at hlt
          obtain ⟨n, hn, c', hrounds, hend, h', hcompleted'⟩ := ih _ hlt h₁ rfl
          refine ⟨n + 1, by omega, c', ?_, hend, h', hcompleted'.trans hcompleted⟩
          rw [rounds?, hc, Option.bind_some]
          exact hrounds

/-- The construction starts with two coprime members. -/
theorem sound_start {s : Poly} (hs : s.isConstant = false)
    (h : IsCoprime s.toPolynomial s.derivative.toPolynomial) : (start s).Sound where
  sequence := by
    refine IsSturmSequence.pair (Poly.degree_derivative_lt hs) ?_
    rintro x ⟨hx, hderivative⟩
    exact realEval_ne_zero_of_isCoprime h hx hderivative
  coprime := h
  divisor_ne := Poly.derivative_isZero hs

end PartialChain

namespace SturmChain

/-- **The construction of a Sturm chain ends, and with a Sturm sequence.** Let the square-free
part of `p` not be a number. Fewer rounds than its degree lead from the square-free part and its
derivative to the members of the chain, and then there is no further round. The degrees of the
members decrease, so that there are at most one more of them than the degree; the last member is
a number other than zero; neighbours have no common real zero; and where an inner member vanishes
its neighbours have opposite signs. -/
theorem construction_ends_in_sturm_sequence (p : Poly)
    (hp : p.squareFreePart.isConstant = false) :
    (∃ n < p.squareFreePart.degree, ∃ c : PartialChain,
        (PartialChain.start p.squareFreePart).rounds? n = some c
          ∧ c.extend? = none
          ∧ c.members = (ofPoly p).members)
      ∧ [p.squareFreePart, p.squareFreePart.derivative] <+: (ofPoly p).members
      ∧ (ofPoly p).members.length ≤ p.squareFreePart.degree + 1
      ∧ (∃ a : Rat, a ≠ 0 ∧ (ofPoly p).members.getLast? = some (.const a))
      ∧ IsSturmSequence (ofPoly p).members := by
  have hcoprime := Poly.separable_squareFreePart (Poly.isZero_of_squareFreePart hp)
  have hstart := PartialChain.sound_start hp hcoprime
  obtain ⟨n, hn, c, hrounds, hend, hc, hcompleted⟩ := hstart.ends
  obtain ⟨hmembers, a, ha, hlast⟩ := hc.completed_eq hend
  have hchain : c.members = (ofPoly p).members := hmembers.symm.trans hcompleted
  have hsequence : IsSturmSequence (ofPoly p).members := hchain ▸ hc.sequence
  refine ⟨⟨n, ?_, c, hrounds, hend, hchain⟩, ?_, Poly.length_le_of_degrees hsequence.degrees,
    ⟨a, ha, ?_⟩, hsequence⟩
  · exact hn.trans_lt (Poly.degree_derivative_lt hp)
  · show [_, _] <+: p.squareFreePart
      :: negatedRemainders p.squareFreePart p.squareFreePart.derivative
    rw [negatedRemainders_cons _ (Poly.derivative_isZero hp)]
    exact List.prefix_append [_, _] _
  · rw [← hchain, PartialChain.members, hlast]
    simp

/-- The polynomial `(x - 1)²·(x² - 2)` has the square-free part `x³ - x² - 2·x + 2` and a chain
of four members. The derivative of the square-free part vanishes at `(1 ± √7)/3`, where the
members around it have opposite signs. -/
theorem construction_ends_in_sturm_sequence_double_root :
    (Poly.ofCoeffs [-2, 4, -1, -2, 1]).squareFreePart.isConstant = false
      ∧ (ofPoly (.ofCoeffs [-2, 4, -1, -2, 1])).members
        = [.ofCoeffs [2, -2, -1, 1], .ofCoeffs [-2, -2, 3], .ofCoeffs [-16/9, 14/9],
          .const (18/49)]
      ∧ ∀ x : ℝ, (Poly.ofCoeffs [-2, -2, 3]).realEval x = 0 →
        (Poly.ofCoeffs [2, -2, -1, 1]).realEval x * (Poly.ofCoeffs [-16/9, 14/9]).realEval x
          < 0 := by
  have hp : (Poly.ofCoeffs [-2, 4, -1, -2, 1]).squareFreePart.isConstant = false := by
    decide +kernel
  have hmembers : (ofPoly (.ofCoeffs [-2, 4, -1, -2, 1])).members
      = [.ofCoeffs [2, -2, -1, 1], .ofCoeffs [-2, -2, 3], .ofCoeffs [-16/9, 14/9],
        .const (18/49)] := by
    decide +kernel
  obtain ⟨-, -, -, -, hsequence⟩ := construction_ends_in_sturm_sequence _ hp
  rw [hmembers] at hsequence
  exact ⟨hp, hmembers, hsequence.opposite _ _ _ ⟨[], [.const (18/49)], rfl⟩⟩

end SturmChain

end AlgebraicReals
