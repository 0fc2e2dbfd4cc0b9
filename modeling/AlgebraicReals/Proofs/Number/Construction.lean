import Mathlib
import AlgebraicReals.Proofs.Number.Reachable

set_option autoImplicit false

/-! # Which intervals are accepted

A root is asked for with a polynomial and an interval, and there are several ways to
ask: for a number or for a root, from a polynomial, from another of its roots or in a
context. They all answer alike (`RootSource.make_eq`), so that one case analysis is
enough (`ofPoly_cases`).

The interval is judged as it was given, and another one is kept: ends are moved in from
infinity, included ends are left out, and an interval around `0` is cut. What is kept is
a part of what was given, with the root in it (`locate_subset`, and `locate_isolates`
for the root). -/

namespace AlgebraicReals

/-! ## The interval that is kept -/

/-- An interval with its ends left out, and missing ones put anywhere, is a part of
it. -/
theorem Interval.between_ends_subset (I : Interval) (a b : Rat) :
    (between (I.lower.value?.getD a) (I.upper.value?.getD b)).toSet ⊆ I.toSet := by
  obtain ⟨lower, upper⟩ := I
  intro x hx
  rw [toSet_between] at hx
  constructor
  · rcases lower with _ | ⟨l, _ | _⟩
    · trivial
    · exact hx.1
    · exact le_of_lt hx.1
  · rcases upper with _ | ⟨u, _ | _⟩
    · trivial
    · exact hx.2
    · exact le_of_lt hx.2

namespace SturmChain

variable {c : SturmChain}

/-- The count of roots is the number of elements of the set of roots. -/
theorem encard_realRoots_inter (hc : c.source.isZero = false) (I : Interval) :
    (c.source.realRoots ∩ I.toSet).encard = c.countRoots I := by
  classical
  have hfin := Poly.finite_realRoots hc
  have hset : c.source.realRoots ∩ I.toSet = ↑(hfin.toFinset.filter (· ∈ I.toSet)) := by
    ext x
    simp
  rw [hset, Set.encard_coe_eq_coe_finsetCard,
    countRoots_eq_card hc hfin.toFinset (fun x => hfin.mem_toFinset) I]

theorem cut_subset {l m u : Rat} (hlm : l < m) (hmu : m < u) :
    (c.cut l m u).interval.toSet ⊆ (Interval.between l u).toSet := by
  have hlm' : (l : ℝ) < m := Rat.cast_lt.mpr hlm
  have hmu' : (m : ℝ) < u := Rat.cast_lt.mpr hmu
  rw [Interval.toSet_between, cut]
  split
  · rw [Location.interval, Interval.toSet_point]
    exact Set.singleton_subset_iff.mpr ⟨hlm', hmu'⟩
  split
  · rw [Location.interval, Interval.toSet_between]
    exact Set.Ioo_subset_Ioo_right hmu'.le
  · rw [Location.interval, Interval.toSet_between]
    exact Set.Ioo_subset_Ioo_left hlm'.le

/-- The normal form of an interval with one root is a part of the interval. -/
theorem locate_subset (hc : c.source.isZero = false) {I : Interval} {α : ℝ}
    (hI : c.source.realRoots ∩ I.toSet = {α}) : (c.locate I).interval.toSet ⊆ I.toSet := by
  obtain ⟨hroot, hα⟩ := root_mem hI
  have hI0 : I.isEmpty = false := Interval.isEmpty_eq_false hα
  rw [locate]
  split
  · rename_i x hx
    rw [(Interval.point?_eq_some_iff I x).mp hx]
    rfl
  split
  · rename_i hdeg
    rw [Location.interval, Interval.toSet_point, root_of_degree_one hc hdeg hroot]
    exact Set.singleton_subset_iff.mpr hα
  split
  · rename_i hl
    rw [Location.interval, Interval.toSet_point]
    exact Set.singleton_subset_iff.mpr (Interval.lower_mem hI0 (Bool.and_eq_true _ _ ▸ hl).1)
  split
  · rename_i hu
    rw [Location.interval, Interval.toSet_point]
    exact Set.singleton_subset_iff.mpr (Interval.upper_mem hI0 (Bool.and_eq_true _ _ ▸ hu).1)
  have hends := I.between_ends_subset (-c.source.cauchyBound) c.source.cauchyBound
  simp only
  split
  · rename_i h0
    obtain ⟨hl0, h0u⟩ := (Interval.contains_between _ _ _).mp h0
    exact (cut_subset hl0 h0u).trans hends
  · exact hends

end SturmChain

/-! ## One way to ask -/

namespace IsolatedRoot

/-- **All that asking for a root can give**: a refusal of the zero polynomial, a refusal
of an interval with another number of roots than one, or the one root in the interval. -/
theorem ofPoly_cases (p : Poly) (I : Interval) (mark : Bool) :
    (p = .zero ∧ ofPoly p I mark = .error .zeroPolynomial)
      ∨ (p ≠ .zero ∧ ∃ n : Nat, (p.realRoots ∩ I.toSet).encard = n ∧ n ≠ 1
        ∧ ofPoly p I mark = .error (.nonIsolating n))
      ∨ (p ≠ .zero ∧ ∃ α r, p.realRoots ∩ I.toSet = {α} ∧ ofPoly p I mark = .ok r
        ∧ r.Isolates α ∧ r.chain = .ofPoly p ∧ r.isRoot = mark ∧ r.interval.toSet ⊆ I.toSet) := by
  by_cases hp : p = .zero
  · subst hp
    exact .inl ⟨rfl, rfl⟩
  have hz : (SturmChain.ofPoly p).source.isZero = false := Poly.isZero_eq_false_of_ne hp
  have hof : ofPoly p I mark
      = if (SturmChain.ofPoly p).countRoots I = 1
        then .ok ⟨.ofPoly p, (SturmChain.ofPoly p).locate I, mark, 0⟩
        else .error (.nonIsolating ((SturmChain.ofPoly p).countRoots I)) := by
    rw [ofPoly, ofChain, hz]
    rfl
  by_cases hone : (SturmChain.ofPoly p).countRoots I = 1
  · obtain ⟨α, hα⟩ := (SturmChain.countRoots_eq_one_iff hz I).mp hone
    rw [if_pos hone] at hof
    exact .inr (.inr ⟨hp, α, _, hα, hof, ⟨hz, SturmChain.locate_isolates hz hα⟩, rfl, rfl,
      SturmChain.locate_subset hz hα⟩)
  · rw [if_neg hone] at hof
    exact .inr (.inl ⟨hp, _, SturmChain.encard_realRoots_inter hz I, hone, hof⟩)

end IsolatedRoot

/-! ## All ways to ask -/

theorem IsolatedRoot.sibling_eq (s : IsolatedRoot) (I : Interval) (mark : Bool) :
    s.sibling I mark = ofPoly s.poly I mark := by
  rw [sibling, s.chain.eq_ofPoly]
  rfl

theorem Context.createRoot_eq (ctx : Context) (p : Poly) (I : Interval) (mark : Bool) :
    (ctx.createRoot p I mark).1 = Number.ofRoot p I mark := by
  unfold createRoot
  simp only [ctx.intern_eq p]
  rfl

/-- Where a root is asked for. -/
inductive RootSource where
  /-- As a number, from its polynomial. -/
  | number (p : Poly)
  /-- As an isolated root, from its polynomial. -/
  | isolated (p : Poly)
  /-- From another root of the same polynomial. -/
  | sibling (s : IsolatedRoot)
  /-- In a context, whatever that has met before. -/
  | context (ctx : Context) (p : Poly)

namespace RootSource

/-- The polynomial a root is asked for. -/
def poly : RootSource → Poly
  | number p => p
  | isolated p => p
  | sibling s => s.poly
  | context _ p => p

/-- The root in an interval, or why there is none. -/
def make (I : Interval) (mark : Bool) : RootSource → Except AlgebraicError Number
  | number p => Number.ofRoot p I mark
  | isolated p => (IsolatedRoot.ofPoly p I mark).map .root
  | sibling s => (s.sibling I mark).map .root
  | context ctx p => (ctx.createRoot p I mark).1

theorem make_eq (source : RootSource) (I : Interval) (mark : Bool) :
    source.make I mark = (IsolatedRoot.ofPoly source.poly I mark).map .root := by
  cases source with
  | number p => rfl
  | isolated p => rfl
  | sibling s => rw [make, s.sibling_eq, poly]
  | context ctx p => exact ctx.createRoot_eq p I mark

/-- **A root is made exactly from an interval with one root.** Whichever way it is asked
for, from a polynomial and an interval with ends of any kinds: the zero polynomial, and
only it, is refused as such; an interval is refused exactly if the polynomial is not
zero and the number of its distinct real roots in the interval is not one, and the
refusal says this number; in all other cases a root is made, it stands for the only real
root `α` of the polynomial in the interval, and the interval that it keeps is a part of
the one that was given. -/
theorem make_accepts_isolating (source : RootSource) (I : Interval) (mark : Bool) :
    (source.make I mark = .error .zeroPolynomial ↔ source.poly = .zero)
      ∧ (∀ n : Nat, source.make I mark = .error (.nonIsolating n)
        ↔ source.poly ≠ .zero ∧ (source.poly.realRoots ∩ I.toSet).encard = n ∧ n ≠ 1)
      ∧ (source.poly ≠ .zero → (source.poly.realRoots ∩ I.toSet).encard = 1 →
        ∃ α r, source.poly.realRoots ∩ I.toSet = {α} ∧ source.make I mark = .ok (.root r)
          ∧ (Number.root r).Denotes α ∧ r.poly = source.poly ∧ r.isRoot = mark
          ∧ r.interval.toSet ⊆ I.toSet) := by
  rw [source.make_eq]
  rcases IsolatedRoot.ofPoly_cases source.poly I mark with
    ⟨hp, hres⟩ | ⟨hp, k, hk, hk1, hres⟩ | ⟨hp, β, r, hβ, hres, hr, hchain, hmark, hsub⟩
  · rw [hres]
    refine ⟨⟨fun _ => hp, fun _ => rfl⟩, fun n => ⟨fun h => ?_, fun h => absurd hp h.1⟩,
      fun h => absurd hp h⟩
    cases h
  · rw [hres]
    refine ⟨⟨fun h => ?_, fun h => absurd h hp⟩, fun n => ?_, fun _ hone => ?_⟩
    · cases h
    · constructor
      · intro h
        cases h
        exact ⟨hp, hk, hk1⟩
      · rintro ⟨-, hn, -⟩
        obtain rfl : k = n := Nat.cast_injective (hk.symm.trans hn)
        rfl
    · -- the interval was refused because there is not one root in it
      rw [hk] at hone
      exact absurd (Nat.cast_injective (hone.trans Nat.cast_one.symm)) hk1
  · have hone : (source.poly.realRoots ∩ I.toSet).encard = 1 := by
      rw [hβ, Set.encard_singleton]
    rw [hres]
    refine ⟨⟨fun h => ?_, fun h => absurd h hp⟩, fun n => ⟨fun h => ?_, ?_⟩, fun _ _ => ?_⟩
    · cases h
    · cases h
    · rintro ⟨-, hn, hn1⟩
      rw [hone] at hn
      exact absurd (Nat.cast_injective (hn.symm.trans Nat.cast_one.symm)) hn1
    · refine ⟨β, r, hβ, rfl, hr, ?_, hmark, hsub⟩
      rw [IsolatedRoot.poly, hchain, SturmChain.source_ofPoly]

end RootSource

end AlgebraicReals
