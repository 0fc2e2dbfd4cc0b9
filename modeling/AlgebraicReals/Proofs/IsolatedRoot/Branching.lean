import Mathlib
import AlgebraicReals.Proofs.IsolatedRoot.Bisection
import AlgebraicReals.Proofs.Number.Reachable

set_option autoImplicit false

/-! # Points to branch on

A point to branch on is the root itself or a midpoint that is not an integer. The search
for it does not stop because the interval becomes narrow, as an interval of any width may
have an integer in the middle. It stops because two integers in a row are too much for a
narrow interval: the first midpoint is an end of the next interval, whose midpoint lies
half a width away from there (`two_le_width_refine`). -/

namespace AlgebraicReals

/-! ## Integers among the rationals -/

namespace Rational

theorem isIntegral_iff (x : Rat) : isIntegral x = true ↔ ∃ n : ℤ, (n : Rat) = x := by
  rw [isIntegral, beq_iff_eq, Rat.den_eq_one_iff]
  constructor
  · intro h
    exact ⟨x.num, h⟩
  · rintro ⟨n, rfl⟩
    rw [Rat.num_intCast]

section

variable {l u : Rat} (hlt : l < u) (hmid : isIntegral (midpoint l u) = true)

include hlt hmid

theorem two_le_of_integral_lower (hl : isIntegral l = true) : 2 ≤ u - l := by
  obtain ⟨m, hm⟩ := (isIntegral_iff _).mp hmid
  obtain ⟨n, rfl⟩ := (isIntegral_iff l).mp hl
  have hnm : n < m := by
    have h := lt_midpoint hlt
    rwa [← hm, Int.cast_lt] at h
  have hone : (n : Rat) + 1 ≤ m := mod_cast hnm
  rw [midpoint] at hm
  linarith

theorem two_le_of_integral_upper (hu : isIntegral u = true) : 2 ≤ u - l := by
  obtain ⟨m, hm⟩ := (isIntegral_iff _).mp hmid
  obtain ⟨n, rfl⟩ := (isIntegral_iff u).mp hu
  have hmn : m < n := by
    have h := midpoint_lt hlt
    rwa [← hm, Int.cast_lt] at h
  have hone : (m : Rat) + 1 ≤ n := mod_cast hmn
  rw [midpoint] at hm
  linarith

end

end Rational

namespace IsolatedRoot

/-! ## The test -/

section

variable {r : IsolatedRoot} {α : ℝ}

/-- **All an answer can be**: the root, which is then known, or a number inside the interval
that is neither the root nor an integer. -/
theorem branchingPoint?_eq_some (h : r.Isolates α) {m : Rat} {s : IsolatedRoot}
    (hm : branchingPoint? r = some (m, s)) :
    (s.location = .exact m ∧ (m : ℝ) = α)
      ∨ ∃ l u, s.location = .between l u ∧ l < m ∧ m < u ∧ Rational.isIntegral m = false
        ∧ (m : ℝ) ≠ α := by
  unfold branchingPoint? at hm
  split at hm
  · rename_i v hloc
    cases hm
    exact .inl ⟨hloc, h.value_eq hloc⟩
  rename_i l u hloc
  have htraps := h.traps hloc
  have hlower := Rational.lt_midpoint htraps.lt
  have hupper := Rational.midpoint_lt htraps.lt
  simp only at hm
  split at hm
  · rename_i hroot
    cases hm
    exact .inl ⟨rfl, htraps.eq_of_root ((SturmChain.isRoot_iff h.nonzero _).mp hroot) hlower hupper⟩
  rename_i hroot
  split at hm
  · cases hm
  · rename_i hint
    cases hm
    refine .inr ⟨l, u, hloc, hlower, hupper, Bool.eq_false_iff.mpr hint, fun heq => hroot ?_⟩
    rw [SturmChain.isRoot_iff h.nonzero, heq]
    exact h.root

theorem branchingPoint?_eq_none (hr : branchingPoint? r = none) :
    ∃ l u, r.location = .between l u ∧ Rational.isIntegral (Rational.midpoint l u) = true := by
  unfold branchingPoint? at hr
  split at hr
  · cases hr
  rename_i l u hloc
  simp only at hr
  split at hr
  · cases hr
  split at hr
  · rename_i hint
    exact ⟨l, u, hloc, hint⟩
  · cases hr

/-- Two states in a row without an answer are possible only in wide intervals. -/
theorem two_le_width_refine (h : r.Isolates α) (hr : branchingPoint? r = none)
    (hnext : branchingPoint? r.refine = none) : 2 ≤ r.refine.width := by
  obtain ⟨l, u, hloc, hmid⟩ := branchingPoint?_eq_none hr
  obtain ⟨l', u', hloc', hmid'⟩ := branchingPoint?_eq_none hnext
  have hlt := (h.traps hloc).lt
  rw [width_of_between hloc']
  rcases refine_cases h hloc with ⟨hhalf, -⟩ | ⟨hhalf, -⟩ | ⟨hhalf, -⟩
  · rw [hhalf] at hloc'
    cases hloc'
  · rw [hhalf] at hloc'
    cases hloc'
    exact Rational.two_le_of_integral_upper (Rational.lt_midpoint hlt) hmid' hmid
  · rw [hhalf] at hloc'
    cases hloc'
    exact Rational.two_le_of_integral_lower (Rational.midpoint_lt hlt) hmid' hmid

end

/-! ## The search -/

theorem branchingPoint_ok {r : IsolatedRoot} {α : ℝ} (h : r.Isolates α) {k cap : Nat}
    (hw : r.width ≤ 2 ^ k) (hcap : max 1 k ≤ cap) :
    ∃ m, (r.branchingPoint cap).answer = .ok m := by
  rcases search_cases branchingPoint? IsolatedRoot.refine cap r with
    ⟨_, _, m, _, _, _, hres⟩ | ⟨hnone, -⟩
  · exact ⟨m, by rw [branchingPoint, hres]⟩
  -- the last two states that the cap allows for have no answer
  obtain ⟨n, rfl⟩ : ∃ n, cap = n + 1 := Nat.exists_eq_add_of_le' ((le_max_left 1 k).trans hcap)
  have hlast := hnone (n + 1) le_rfl
  have hnarrow := width_iterate_refine_le h (n + 1)
  rw [Function.iterate_succ_apply'] at hlast hnarrow
  have hwide := two_le_width_refine (iterate_refine_tracks h n).1 (hnone n (by omega)) hlast
  have htwo : (2 : Rat) ≤ 1 := by
    calc (2 : Rat) ≤ (IsolatedRoot.refine^[n] r).refine.width := hwide
      _ ≤ r.width / 2 ^ (n + 1) := hnarrow
      _ ≤ 2 ^ k / 2 ^ (n + 1) := by gcongr
      _ ≤ 1 := div_le_one_of_le₀ (pow_le_pow_right₀ one_le_two (by omega)) (by positivity)
  exact absurd htwo (by norm_num)

/-- **A point to branch on is found, and it tells what it is.** Let a root stand for `α`,
with any history, and let any cap be given. An answer is `α` itself, and then the root is
known exactly afterwards; or it is a number other than `α`, and not an integer, strictly
inside the interval that is left. So an integer is answered only if it is the root. If the
interval has a width of at most `2 ^ k`, a cap of `k` is enough for an answer, and `1` if
`k` is `0`. -/
theorem branchingPoint_root_or_fractional {r : IsolatedRoot} {α : ℝ}
    (h : (Number.root r).Reaches α) (cap : Nat) :
    (∀ m, (r.branchingPoint cap).answer = .ok m →
      (((m : ℝ) = α ∧ (r.branchingPoint cap).state.value? = some m)
        ∨ ((m : ℝ) ≠ α ∧ (∀ n : ℤ, (n : Rat) ≠ m)
          ∧ ∃ l u, (r.branchingPoint cap).state.interval = .between l u ∧ l < m ∧ m < u))
      ∧ ∀ n : ℤ, (n : Rat) = m → (m : ℝ) = α)
      ∧ ∀ k, r.width ≤ 2 ^ k → max 1 k ≤ cap → ∃ m, (r.branchingPoint cap).answer = .ok m := by
  have hr : r.Isolates α := h.denotes
  refine ⟨fun m hm => ?_, fun k hw hcap => branchingPoint_ok hr hw hcap⟩
  have hresult := search_result_of_invariant (P := fun s : IsolatedRoot => s.Isolates α)
    (fun _ hs => refine_isolates hs) (fun _ _ _ hs hst => branchingPoint?_eq_some hs hst) hr hm
  rcases hresult with ⟨hloc, hα⟩ | ⟨l, u, hloc, hlm, hmu, hint, hα⟩
  · refine ⟨.inl ⟨hα, ?_⟩, fun _ _ => hα⟩
    show (r.branchingPoint cap).state.location.value? = some m
    rw [branchingPoint, hloc, Location.value?]
  · have hfrac : ∀ n : ℤ, (n : Rat) ≠ m := by
      intro n hn
      rw [(Rational.isIntegral_iff m).mpr ⟨n, hn⟩] at hint
      cases hint
    refine ⟨.inr ⟨hα, hfrac, l, u, ?_, hlm, hmu⟩, fun n hn => absurd hn (hfrac n)⟩
    show (r.branchingPoint cap).state.location.interval = .between l u
    rw [branchingPoint, hloc, Location.interval]

/-- The root of `x² - 2` above `0` has a point to branch on, which is not an integer. -/
theorem branchingPoint_root_or_fractional_sqrt_two :
    ∃ r : IsolatedRoot, r.poly = .ofCoeffs [-2, 0, 1] ∧ (Number.root r).Reaches √2
      ∧ ∃ cap m, (r.branchingPoint cap).answer = .ok m ∧ (m : ℝ) ≠ √2
        ∧ ∀ n : ℤ, (n : Rat) ≠ m := by
  obtain ⟨a, hpoly, ha⟩ := Number.exists_reaches_sqrt_two
  cases a with
  | rational v mark => cases hpoly
  | root r =>
      obtain ⟨k, hk⟩ := pow_unbounded_of_one_lt r.width one_lt_two
      obtain ⟨hanswer, hok⟩ := branchingPoint_root_or_fractional ha (max 1 k)
      obtain ⟨m, hm⟩ := hok k hk.le le_rfl
      have hne : (m : ℝ) ≠ √2 := fun heq => irrational_sqrt_two ⟨m, heq⟩
      rcases (hanswer m hm).1 with ⟨heq, -⟩ | ⟨-, hfrac, -⟩
      · exact absurd heq hne
      · exact ⟨r, Option.some.inj hpoly, ha, max 1 k, m, hm, hne, hfrac⟩

end IsolatedRoot

end AlgebraicReals
