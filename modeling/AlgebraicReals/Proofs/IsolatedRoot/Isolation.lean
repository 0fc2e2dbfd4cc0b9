import Mathlib
import AlgebraicReals.IsolatedRoot.Basic
import AlgebraicReals.Proofs.Poly.CauchyBound
import AlgebraicReals.Proofs.Sturm.Counting

set_option autoImplicit false

/-! # Which root an isolated root is

The invariant of isolated roots: `r.Isolates α` says that `r` stands for the real
number `α`. Either its value is known and is `α`, or it lies in an open interval
that does not reach across `0` and in which `α` is the only root.

Two things establish and keep it. Cutting such an interval at a point leaves the
part with the root in it (`cut_cases`), because the part on the left is counted
exactly. And the normal form of an interval with one root, of whatever shape it
was, still holds that root (`locate_isolates`). -/

namespace AlgebraicReals

/-- Strictly between two rationals `α` is a root of the polynomial, and the only
one. -/
structure Traps (p : Poly) (l u : Rat) (α : ℝ) : Prop where
  root : p.realEval α = 0
  lower : (l : ℝ) < α
  upper : α < u
  only : ∀ β, p.realEval β = 0 → (l : ℝ) < β → β < u → β = α

/-- The location tells which root of the polynomial is meant. -/
def Location.Isolates (p : Poly) (α : ℝ) : Location → Prop
  | exact v => (v : ℝ) = α ∧ p.realEval α = 0
  | between l u => Traps p l u α ∧ ¬(l < 0 ∧ 0 < u)

/-- The isolated root stands for the real number `α`. -/
structure IsolatedRoot.Isolates (r : IsolatedRoot) (α : ℝ) : Prop where
  nonzero : r.poly.isZero = false
  location : r.location.Isolates r.poly α

namespace IsolatedRoot

section

variable {r : IsolatedRoot} {α : ℝ} (h : r.Isolates α)

include h

theorem Isolates.value_eq {v : Rat} (hloc : r.location = .exact v) : (v : ℝ) = α := by
  have hiso := h.location
  rw [hloc] at hiso
  exact hiso.1

theorem Isolates.traps {l u : Rat} (hloc : r.location = .between l u) : Traps r.poly l u α := by
  have hiso := h.location
  rw [hloc] at hiso
  exact hiso.1

theorem Isolates.not_across_zero {l u : Rat} (hloc : r.location = .between l u) :
    ¬(l < 0 ∧ 0 < u) := by
  have hiso := h.location
  rw [hloc] at hiso
  exact hiso.2

theorem Isolates.root : r.poly.realEval α = 0 := by
  cases hloc : r.location with
  | exact v =>
      have hiso := h.location
      rw [hloc] at hiso
      exact hiso.2
  | between l u => exact (h.traps hloc).root

end

end IsolatedRoot

/-! ## Cutting -/

section Cut

variable {p : Poly} {l m u : Rat} {α : ℝ}

theorem Traps.lt (h : Traps p l u α) : l < u :=
  Rat.cast_lt.mp (h.lower.trans h.upper)

/-- A root that is met between the bounds is the one that is trapped. -/
theorem Traps.eq_of_root (h : Traps p l u α) (hm : (m : ℝ) ∈ p.realRoots) (hlm : l < m)
    (hmu : m < u) : (m : ℝ) = α :=
  h.only m hm (Rat.cast_lt.mpr hlm) (Rat.cast_lt.mpr hmu)

theorem Traps.left (h : Traps p l u α) (hmu : m ≤ u) (hα : α < m) : Traps p l m α where
  root := h.root
  lower := h.lower
  upper := hα
  only β hβ hl hm := h.only β hβ hl (hm.trans_le (Rat.cast_le.mpr hmu))

theorem Traps.right (h : Traps p l u α) (hlm : l ≤ m) (hα : (m : ℝ) < α) : Traps p m u α where
  root := h.root
  lower := hα
  upper := h.upper
  only β hβ hm hu := h.only β hβ ((Rat.cast_le.mpr hlm).trans_lt hm) hu

/-- The left part of a cut holds exactly one root if that is the trapped one, and
none otherwise. -/
theorem SturmChain.isolates_left_iff {c : SturmChain} (hc : c.source.isZero = false)
    (h : Traps c.source l u α) (hmu : m ≤ u) :
    c.isolates (.between l m) = true ↔ α < m := by
  rw [isolates, decide_eq_true_iff, countRoots_eq_one_iff hc]
  constructor
  · rintro ⟨β, hβ⟩
    have hmem : β ∈ c.source.realRoots ∩ (Interval.between l m).toSet := by
      rw [hβ]
      rfl
    obtain ⟨hroot, hl, hm⟩ := (Interval.toSet_between l m) ▸ hmem
    have hβα : β = α := h.only β hroot hl (lt_of_lt_of_le hm (Rat.cast_le.mpr hmu))
    rwa [← hβα]
  · intro hα
    refine ⟨α, Set.eq_singleton_iff_unique_mem.mpr ⟨⟨h.root, ?_⟩, ?_⟩⟩
    · rw [Interval.toSet_between]
      exact ⟨h.lower, hα⟩
    · rintro β ⟨hroot, hβ⟩
      rw [Interval.toSet_between] at hβ
      exact (h.left hmu hα).only β hroot hβ.1 hβ.2

/-- **All a cut can do**: meet the root, or keep the part that holds it. -/
theorem SturmChain.cut_cases {c : SturmChain} (hc : c.source.isZero = false)
    (h : Traps c.source l u α) (hlm : l < m) (hmu : m < u) :
    (c.cut l m u = .exact m ∧ (m : ℝ) = α)
      ∨ (c.cut l m u = .between l m ∧ Traps c.source l m α)
      ∨ (c.cut l m u = .between m u ∧ Traps c.source m u α) := by
  rw [cut]
  split
  · rename_i hm
    exact .inl ⟨rfl, h.eq_of_root ((isRoot_iff hc m).mp hm) hlm hmu⟩
  · rename_i hm
    split
    · rename_i hleft
      exact .inr (.inl ⟨rfl, h.left hmu.le ((isolates_left_iff hc h hmu.le).mp hleft)⟩)
    · rename_i hleft
      rw [isolates_left_iff hc h hmu.le, not_lt] at hleft
      -- the count on the left leaves out `m`, which the test before has excluded
      have hne : (m : ℝ) ≠ α := by
        intro heq
        apply hm
        rw [isRoot_iff hc, heq]
        exact h.root
      exact .inr (.inr ⟨rfl, h.right hlm.le (lt_of_le_of_ne hleft hne)⟩)

end Cut

/-! ## The normal form -/

namespace SturmChain

variable {c : SturmChain} (hc : c.source.isZero = false) {I : Interval} {α : ℝ}
  (hI : c.source.realRoots ∩ I.toSet = {α})

include hc

/-- A linear head has its root at the opposite of its constant term, as it is
monic. -/
theorem root_of_degree_one (hdeg : c.head.degree = 1) (hα : c.source.realEval α = 0) :
    ((-c.head.constantTerm : Rat) : ℝ) = α := by
  have hmonic : c.head.toPolynomial.Monic := by
    rw [c.head_eq]
    exact Poly.monic_squareFreePart hc
  have hlin : c.head.toPolynomial = Polynomial.X + Polynomial.C c.head.constantTerm := by
    have hdeg' : c.head.toPolynomial.natDegree = 1 := by rw [Poly.natDegree_toPolynomial, hdeg]
    have h := hmonic.eq_X_add_C hdeg'
    rwa [Poly.coeff_toPolynomial] at h
  have hroot : c.head.realEval α = 0 := by
    rw [← Poly.mem_realRoots, realRoots_head hc]
    exact hα
  rw [Poly.realEval, hlin, map_add, Polynomial.aeval_X, Polynomial.aeval_C] at hroot
  have hsum : α + (c.head.constantTerm : ℝ) = 0 := hroot
  push_cast
  linarith

include hI

omit hc in
theorem root_mem : c.source.realEval α = 0 ∧ α ∈ I.toSet := by
  have hmem : α ∈ c.source.realRoots ∩ I.toSet := by
    rw [hI]
    rfl
  exact hmem

omit hc in
theorem root_unique {β : ℝ} (hβ : c.source.realEval β = 0) (hβI : β ∈ I.toSet) : β = α := by
  have hmem : β ∈ c.source.realRoots ∩ I.toSet := ⟨hβ, hβI⟩
  rw [hI] at hmem
  exact hmem

/-- Clamped to finite ends, an interval without a root on an included end still
traps its root. -/
theorem traps_of_ends
    (hl : (I.lower.kind.isIncluded && c.isRoot I.lower.value) ≠ true)
    (hu : (I.upper.kind.isIncluded && c.isRoot I.upper.value) ≠ true) :
    Traps c.source (I.lower.value?.getD (-c.source.cauchyBound))
      (I.upper.value?.getD c.source.cauchyBound) α := by
  obtain ⟨hroot, hmemL, hmemU⟩ := root_mem hI
  have hcauchy := abs_lt.mp (Poly.abs_lt_cauchyBound hc hroot)
  obtain ⟨lower, upper⟩ := I
  refine ⟨hroot, ?_, ?_, fun β hβ hlβ hβu => root_unique hI hβ ⟨?_, ?_⟩⟩
  -- an infinite side is clamped outside all roots, and an included end is not the root
  · rcases lower with _ | ⟨l, _ | _⟩
    · simpa [Endpoint.value?] using hcauchy.1
    · exact hmemL
    · refine lt_of_le_of_ne hmemL fun heq => hl ?_
      rw [Bool.and_eq_true, isRoot_iff hc]
      refine ⟨rfl, ?_⟩
      rw [show ((Endpoint.finite l true).value : ℝ) = α from heq]
      exact hroot
  · rcases upper with _ | ⟨u, _ | _⟩
    · exact hcauchy.2
    · exact hmemU
    · refine lt_of_le_of_ne hmemU fun heq => hu ?_
      rw [Bool.and_eq_true, isRoot_iff hc]
      refine ⟨rfl, ?_⟩
      rw [show ((Endpoint.finite u true).value : ℝ) = α from heq.symm]
      exact hroot
  -- what lies between the new ends lies between the old ones
  · rcases lower with _ | ⟨l, _ | _⟩
    · trivial
    · exact hlβ
    · exact le_of_lt hlβ
  · rcases upper with _ | ⟨u, _ | _⟩
    · trivial
    · exact hβu
    · exact le_of_lt hβu

/-- **The normal form keeps the root**, whatever the shape of the interval: single
points, included ends that are roots, infinite ends and intervals around `0`. -/
theorem locate_isolates : (c.locate I).Isolates c.source α := by
  obtain ⟨hroot, hmem⟩ := root_mem hI
  have hI0 : I.isEmpty = false := Interval.isEmpty_eq_false hmem
  rw [locate]
  split
  · rename_i x hx
    obtain rfl := (Interval.point?_eq_some_iff I x).mp hx
    rw [Interval.toSet_point] at hmem
    exact ⟨hmem.symm, hroot⟩
  split
  · rename_i hdeg
    exact ⟨root_of_degree_one hc hdeg hroot, hroot⟩
  split
  · rename_i hl
    obtain ⟨hincl, hlroot⟩ := Bool.and_eq_true _ _ ▸ hl
    exact ⟨root_unique hI ((isRoot_iff hc _).mp hlroot) (Interval.lower_mem hI0 hincl), hroot⟩
  rename_i hl
  -- the two ends, included and roots, are the same argument
  split
  · rename_i hu
    obtain ⟨hincl, huroot⟩ := Bool.and_eq_true _ _ ▸ hu
    exact ⟨root_unique hI ((isRoot_iff hc _).mp huroot) (Interval.upper_mem hI0 hincl), hroot⟩
  rename_i hu
  have htraps := traps_of_ends hc hI hl hu
  simp only
  split
  · -- around `0` the interval is cut there, and one part has `0` as an end
    rename_i h0
    obtain ⟨hl0, h0u⟩ := (Interval.contains_between _ _ _).mp h0
    rcases cut_cases hc htraps hl0 h0u with ⟨hcut, h0α⟩ | ⟨hcut, ht⟩ | ⟨hcut, ht⟩
    · rw [hcut]
      exact ⟨h0α, hroot⟩
    · rw [hcut]
      exact ⟨ht, fun h => lt_irrefl _ h.2⟩
    · rw [hcut]
      exact ⟨ht, fun h => lt_irrefl _ h.1⟩
  · rename_i h0
    exact ⟨htraps, fun h => h0 ((Interval.contains_between _ _ _).mpr h)⟩

end SturmChain

/-! ## Making roots -/

namespace IsolatedRoot

/-- A root is made only from an interval with exactly one root, and it is that
one. -/
theorem isolates_of_ofChain {c : SturmChain} {I : Interval} {mark : Bool} {r : IsolatedRoot}
    (h : ofChain c I mark = .ok r) :
    r.chain = c ∧ r.isRoot = mark
      ∧ ∃ α, c.source.realRoots ∩ I.toSet = {α} ∧ r.Isolates α := by
  rw [ofChain] at h
  split at h
  · cases h
  · rename_i hz
    have hc : c.source.isZero = false := Bool.eq_false_iff.mpr hz
    simp only at h
    split at h
    · rename_i hone
      obtain ⟨α, hα⟩ := (SturmChain.countRoots_eq_one_iff hc I).mp hone
      cases h
      exact ⟨rfl, rfl, α, hα, hc, SturmChain.locate_isolates hc hα⟩
    · cases h

/-! ## Reading a root -/

theorem interval_of_exact {r : IsolatedRoot} {v : Rat} (hloc : r.location = .exact v) :
    r.interval.toSet = {(v : ℝ)} := by
  rw [interval, hloc, Location.interval, Interval.toSet_point]

theorem interval_of_between {r : IsolatedRoot} {l u : Rat} (hloc : r.location = .between l u) :
    r.interval.toSet = Set.Ioo (l : ℝ) u := by
  rw [interval, hloc, Location.interval, Interval.toSet_between]

theorem Isolates.mem_interval {r : IsolatedRoot} {α : ℝ} (h : r.Isolates α) :
    α ∈ r.interval.toSet := by
  cases hloc : r.location with
  | exact v =>
      rw [interval_of_exact hloc]
      exact (h.value_eq hloc).symm
  | between l u =>
      rw [interval_of_between hloc]
      exact ⟨(h.traps hloc).lower, (h.traps hloc).upper⟩

theorem Isolates.mem_between {r : IsolatedRoot} {α : ℝ} (h : r.Isolates α) {l u : Rat}
    (hloc : r.location = .between l u) : α ∈ (Interval.between l u).toSet := by
  rw [Interval.toSet_between]
  exact ⟨(h.traps hloc).lower, (h.traps hloc).upper⟩

/-- An interval in normal form does not hold `0`. -/
theorem Isolates.zero_notMem {r : IsolatedRoot} {α : ℝ} (h : r.Isolates α) {l u : Rat}
    (hloc : r.location = .between l u) : (0 : ℝ) ∉ (Interval.between l u).toSet := by
  rw [Interval.toSet_between]
  rintro ⟨hl, hu⟩
  exact h.not_across_zero hloc ⟨Rat.cast_lt_zero.mp hl, Rat.cast_pos.mp hu⟩

/-- The sign read off the location is the sign of the root. -/
theorem sign_eq {r : IsolatedRoot} {α : ℝ} (h : r.Isolates α) : r.sign = Sign.ofReal α := by
  unfold sign
  cases hloc : r.location with
  | exact v => rw [← h.value_eq hloc, Sign.ofReal_ratCast]
  | between l u =>
      refine (Interval.ofReal_eq_sign ?_ (h.mem_between hloc)).symm
      intro hzero
      exact h.zero_notMem hloc (Interval.zero_mem_of_sign hzero (h.mem_between hloc))

theorem isZero_iff {r : IsolatedRoot} {α : ℝ} (h : r.Isolates α) : r.isZero = true ↔ α = 0 := by
  unfold isZero
  cases hloc : r.location with
  | exact v => rw [← h.value_eq hloc, decide_eq_true_iff, Rat.cast_eq_zero]
  | between l u =>
      refine ⟨fun hf => absurd hf Bool.false_ne_true, ?_⟩
      rintro rfl
      exact absurd (h.mem_between hloc) (h.zero_notMem hloc)

/-- The two forms a root can have: a known value, or an open interval away from `0`
in which it is the only root. -/
theorem Isolates.forms {r : IsolatedRoot} {α : ℝ} (h : r.Isolates α) :
    (∃ v, r.value? = some v ∧ (v : ℝ) = α ∧ r.interval = .point v)
      ∨ (r.value? = none ∧ ∃ l u, l < u ∧ r.interval = .between l u
        ∧ (0 : ℝ) ∉ r.interval.toSet ∧ r.poly.realRoots ∩ r.interval.toSet = {α}) := by
  cases hloc : r.location with
  | exact v =>
      refine .inl ⟨v, ?_, h.value_eq hloc, ?_⟩
      · rw [value?, hloc, Location.value?]
      · rw [interval, hloc, Location.interval]
  | between l u =>
      have htraps := h.traps hloc
      have hI : r.interval = .between l u := by rw [interval, hloc, Location.interval]
      refine .inr ⟨by rw [value?, hloc, Location.value?], l, u, htraps.lt, hI, ?_, ?_⟩
      · rw [hI]
        exact h.zero_notMem hloc
      · rw [hI, Interval.toSet_between]
        refine Set.eq_singleton_iff_unique_mem.mpr ⟨⟨h.root, htraps.lower, htraps.upper⟩, ?_⟩
        rintro β ⟨hβ, hlβ, hβu⟩
        exact htraps.only β hβ hlβ hβu

end IsolatedRoot

end AlgebraicReals
