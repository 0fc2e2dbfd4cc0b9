import Mathlib
import AlgebraicReals.Proofs.IsolatedRoot.Loops
import AlgebraicReals.Proofs.IsolatedRoot.SignOf
import AlgebraicReals.Proofs.Number.Order

set_option autoImplicit false

/-! # Asking again

A query that runs into its cap leaves the numbers as far refined as it got. Asking again
goes on from there, and the two attempts together do what one attempt with both caps
would have done; once there is an answer, the cap does not matter any more.

For a search this is a matter of which state is the first with an answer. But some
queries look at the numbers before they search, and the second attempt looks at smaller
intervals than the first. What they look for is a fact about the real numbers, a common
root or a given number that is the root, so that it is found at the first attempt or never.
A comparison also starts with the left root each time, which is where the search has got to
after an even number of bisections only. -/

namespace AlgebraicReals

section

variable {σ τ α β : Type}

/-- A higher cap changes neither an answer nor the state it comes with. -/
def AnswersStably (ask : Nat → σ → Outcome σ α) (s : σ) : Prop :=
  ∀ a c x, a ≤ c → (ask a s).answer = .ok x →
    (ask c s).answer = .ok x ∧ (ask c s).state = (ask a s).state

/-- If the query fails with the cap `a`, asking again in the state that it left, with any
cap `b`, gives what asking once with the cap `a + b` would have given; only the number of
bisections in the message of a second failure is that of the second attempt. -/
def ResumesAfter (ask : Nat → σ → Outcome σ α) (s : σ) (a : Nat) : Prop :=
  ∀ e b, (ask a s).answer = .error e →
    (ask (a + b) s).answer = (ask b (ask a s).state).answer.mapError (.after a)
      ∧ (ask (a + b) s).state = (ask b (ask a s).state).state

/-- A query can be asked again after every failure. -/
def Resumes (ask : Nat → σ → Outcome σ α) (s : σ) : Prop :=
  AnswersStably ask s ∧ ∀ a, ResumesAfter ask s a

/-! ## Searches -/

section

variable (answer? : σ → Option (α × σ)) (step : σ → σ)

theorem search_answersStably (s : σ) : AnswersStably (search answer? step) s := by
  intro a c x hac hx
  rcases search_cases answer? step a s with ⟨k, hk, y, t, hnone, hsome, hres⟩ | ⟨_, hres⟩
  · rw [hres] at hx
    cases hx
    rw [hres, search_eq_ok (hk.trans hac) hnone hsome]
    exact ⟨rfl, rfl⟩
  · rw [hres] at hx
    cases hx

/-- **A search goes on where it has stopped.** -/
theorem search_resumesAfter (s : σ) (a : Nat) : ResumesAfter (search answer? step) s a := by
  intro e b he
  rcases search_cases answer? step a s with ⟨_, _, _, _, _, _, hres⟩ | ⟨hnone, hres⟩
  · rw [hres] at he
    cases he
  have hlater (j : Nat) : step^[a + j] s = step^[j] (step^[a] s) := by
    rw [Nat.add_comm, Function.iterate_add_apply]
  -- no state of the first attempt has an answer, so the first one is found by the second
  have hjoin : ∀ k, (∀ j < k, answer? (step^[j] (step^[a] s)) = none) →
      ∀ j < a + k, answer? (step^[j] s) = none := by
    intro k hk j hj
    rcases Nat.lt_or_ge j a with hja | hja
    · exact hnone j hja.le
    · obtain ⟨i, rfl⟩ := Nat.exists_eq_add_of_le hja
      rw [hlater]
      exact hk i (by omega)
  rw [hres]
  show _ = (search answer? step b (step^[a] s)).answer.mapError _
    ∧ _ = (search answer? step b (step^[a] s)).state
  rcases search_cases answer? step b (step^[a] s) with
    ⟨k, hk, y, t, hnone', hsome, hres'⟩ | ⟨hnone', hres'⟩
  · rw [← hlater] at hsome
    rw [hres', search_eq_ok (by omega) (hjoin k hnone') hsome]
    exact ⟨rfl, rfl⟩
  · have hall : ∀ j ≤ a + b, answer? (step^[j] s) = none := by
      intro j hj
      exact hjoin (b + 1) (fun i hi => hnone' i (by omega)) j (by omega)
    rw [hres', search_eq_error hall, hlater]
    exact ⟨rfl, rfl⟩

theorem search_resumes (s : σ) : Resumes (search answer? step) s :=
  ⟨search_answersStably answer? step s, search_resumesAfter answer? step s⟩

end

/-! ## Queries seen another way -/

variable {ask : Nat → σ → Outcome σ α} {s : σ}

theorem AnswersStably.of_now {x : α} (h : ∀ cap, ask cap s = .now x s) : AnswersStably ask s := by
  intro a c y _ hy
  rw [h] at hy
  rw [h, h]
  exact ⟨hy, rfl⟩

theorem ResumesAfter.of_now {x : α} (h : ∀ cap, ask cap s = .now x s) (a : Nat) :
    ResumesAfter ask s a := by
  intro e b he
  rw [h] at he
  cases he

section

variable {ask' : Nat → σ → Outcome σ α} {P : σ → Prop}
  (heq : ∀ cap t, P t → ask cap t = ask' cap t) (hs : P s)

include heq hs

theorem AnswersStably.congr (h : AnswersStably ask s) : AnswersStably ask' s := by
  intro a c x hac hx
  rw [← heq a s hs] at hx ⊢
  rw [← heq c s hs]
  exact h a c x hac hx

/-- Queries that agree wherever `P` holds are resumed alike, if the state that a failure
leaves is such a one. -/
theorem ResumesAfter.congr {a : Nat} (hleft : P (ask a s).state) (h : ResumesAfter ask s a) :
    ResumesAfter ask' s a := by
  intro e b he
  rw [← heq a s hs] at he ⊢
  rw [← heq (a + b) s hs, ← heq b _ hleft]
  exact h e b he

theorem Resumes.congr (hleft : ∀ a, P (ask a s).state) (h : Resumes ask s) : Resumes ask' s :=
  ⟨h.1.congr heq hs, fun a => (h.2 a).congr heq hs (hleft a)⟩

end

theorem AnswersStably.map {f : α → β} (h : AnswersStably ask s) :
    AnswersStably (fun cap t => (ask cap t).map f) s := by
  intro a c y hac hy
  cases ha : (ask a s).answer with
  | error e =>
      simp only [Outcome.map, ha, Except.map] at hy
      cases hy
  | ok x =>
      simp only [Outcome.map, ha, Except.map] at hy
      obtain ⟨hanswer, hstate⟩ := h a c x hac ha
      simp only [Outcome.map, hanswer, Except.map]
      exact ⟨hy, hstate⟩

theorem ResumesAfter.map {f : α → β} {a : Nat} (h : ResumesAfter ask s a) :
    ResumesAfter (fun cap t => (ask cap t).map f) s a := by
  intro e b he
  cases ha : (ask a s).answer with
  | ok x =>
      simp only [Outcome.map, ha, Except.map] at he
      cases he
  | error e' =>
      obtain ⟨hanswer, hstate⟩ := h e' b ha
      simp only [Outcome.map, hanswer]
      refine ⟨?_, hstate⟩
      cases (ask b (ask a s).state).answer <;> rfl

section

variable {ask' : Nat → τ → Outcome τ α} {f : σ → τ}
  (hf : ∀ cap t, ask' cap (f t) = (ask cap t).mapState f)

include hf

theorem AnswersStably.mapState (h : AnswersStably ask s) : AnswersStably ask' (f s) := by
  intro a c x hac hx
  rw [hf] at hx
  obtain ⟨hanswer, hstate⟩ := h a c x hac hx
  rw [hf, hf]
  exact ⟨hanswer, congrArg f hstate⟩

theorem ResumesAfter.mapState {a : Nat} (h : ResumesAfter ask s a) :
    ResumesAfter ask' (f s) a := by
  intro e b he
  rw [hf] at he
  obtain ⟨hanswer, hstate⟩ := h e b he
  have hagain : ask' b (ask' a (f s)).state = (ask b (ask a s).state).mapState f := by
    rw [hf]
    exact hf b _
  rw [hagain, hf]
  exact ⟨hanswer, congrArg f hstate⟩

end

end

/-! ## Queries about one root -/

namespace IsolatedRoot

section

variable {r : IsolatedRoot} {α : ℝ} (h : r.Isolates α) (ev : Evaluator) (q : Poly)

include h

/-- A sign is found without a search, or the polynomial has a value other than zero at
the root. -/
theorem signOf_eq_now_or_ne_zero :
    (∃ sign, ∀ cap, r.signOf ev q cap = .now sign r)
      ∨ q.isConstant = false ∧ q.realEval α ≠ 0 := by
  cases hloc : r.location with
  | exact v =>
      refine .inl ⟨Sign.ofRat (ev.valueAt q v), fun cap => ?_⟩
      simp only [signOf, hloc]
  | between l u =>
      by_cases hconst : q.isConstant = true
      · refine .inl ⟨Sign.ofRat q.constantTerm, fun cap => ?_⟩
        simp only [signOf, hloc, hconst, if_true]
      by_cases hcommon : r.poly.haveCommonRoot q (.between l u) = true
      · refine .inl ⟨.zero, fun cap => ?_⟩
        simp only [signOf, hloc, if_neg hconst, hcommon, if_true]
      · rw [haveCommonRoot_iff_realEval_eq_zero h hloc] at hcommon
        exact .inr ⟨Bool.eq_false_iff.mpr hconst, hcommon⟩

variable {q} (hconst : q.isConstant = false) (hq : q.realEval α ≠ 0)

include hconst hq

theorem signOf_eq_search (cap : Nat) :
    (r.signOf ev q cap).answer = (search (signOf? ev q) IsolatedRoot.refine cap r).answer
      ∧ (r.signOf ev q cap).state = (search (signOf? ev q) IsolatedRoot.refine cap r).state := by
  cases hloc : r.location with
  | exact v =>
      have hfirst : signOf? ev q r = some (Sign.ofRat (ev.valueAt q v), r) := by
        simp only [signOf?, hloc]
      rw [search_of_answer hfirst]
      simp only [signOf, hloc]
      exact ⟨rfl, rfl⟩
  | between l u =>
      have hcommon : r.poly.haveCommonRoot q (.between l u) = false := by
        rw [Bool.eq_false_iff, Ne, haveCommonRoot_iff_realEval_eq_zero h hloc]
        exact hq
      simp only [signOf, hloc, hconst, hcommon]
      exact ⟨rfl, rfl⟩

end

section

variable {r : IsolatedRoot} {α : ℝ} (h : r.Isolates α) (ev : Evaluator) (q : Poly)

include h

theorem signOf_answersStably : AnswersStably (fun cap s => s.signOf ev q cap) r := by
  rcases signOf_eq_now_or_ne_zero h ev q with ⟨sign, hnow⟩ | ⟨hconst, hq⟩
  · exact .of_now hnow
  · intro a c x hac hx
    obtain ⟨ha, hsa⟩ := signOf_eq_search h ev hconst hq a
    obtain ⟨hc, hsc⟩ := signOf_eq_search h ev hconst hq c
    rw [ha] at hx
    rw [hc, hsc, hsa]
    exact search_answersStably _ _ r a c x hac hx

theorem signOf_resumesAfter (a : Nat) : ResumesAfter (fun cap s => s.signOf ev q cap) r a := by
  rcases signOf_eq_now_or_ne_zero h ev q with ⟨sign, hnow⟩ | ⟨hconst, hq⟩
  · exact .of_now hnow a
  · intro e b he
    -- the state that is left stands for the same number, so that no common root is found there
    have hleft := (signOf_tracks h ev q a).1
    obtain ⟨ha, hsa⟩ := signOf_eq_search h ev hconst hq a
    obtain ⟨hab, hsab⟩ := signOf_eq_search h ev hconst hq (a + b)
    obtain ⟨hb, hsb⟩ := signOf_eq_search hleft ev hconst hq b
    rw [ha] at he
    rw [hab, hsab, hb, hsb, hsa]
    exact search_resumesAfter _ _ r a e b he

end

/-! ### The loops that look once

The second attempt looks again whether the number in the way is the root. It was not, and
bisections do not change that: in every state the loop is the search. -/

section

variable {r : IsolatedRoot} {α : ℝ} (h : r.Isolates α)

include h

theorem compareValueOnce_resumes (v : Rat) :
    Resumes (fun cap s => s.compareValueOnce v cap) r := by
  have hsearch : Resumes (fun cap s => s.compareValue v cap) r := search_resumes _ _ r
  refine hsearch.congr (P := fun s : IsolatedRoot => s.Isolates α) ?_ h ?_
  · intro cap s hs
    exact compareValue_eq_once hs v cap
  · intro a
    exact Operation.apply_isolates h (.compareValue v a)

theorem containedInOnce_resumes (query : Interval) :
    Resumes (fun cap s => s.containedInOnce query cap) r := by
  have hsearch : Resumes (fun cap s => s.containedIn query cap) r := search_resumes _ _ r
  refine hsearch.congr (P := fun s : IsolatedRoot => s.Isolates α) ?_ h ?_
  · intro cap s hs
    exact containedIn_eq_once hs query cap
  · intro a
    exact Operation.apply_isolates h (.containedIn query a)

end

end IsolatedRoot

/-! ## Two roots -/

theorem Contest.eq_of_leftNext {s : Contest} (h : s.leftNext = true) :
    s = ⟨s.left, s.right, true⟩ := by
  obtain ⟨left, right, _⟩ := s
  cases h
  rfl

namespace IsolatedRoot

section

variable {a b : IsolatedRoot} {α β : ℝ} (ha : a.Isolates α) (hb : b.Isolates β)

theorem compare_eq_search (hshare : a.sharesRoot b = false) (cap : Nat) :
    a.compare b cap
      = (search Contest.decide? Contest.step cap ⟨a, b, true⟩).mapState
        fun s => (s.left, s.right) := by
  rw [IsolatedRoot.compare, hshare]
  rfl

theorem compare_answersStably :
    AnswersStably (fun cap (s : IsolatedRoot × IsolatedRoot) => s.1.compare s.2 cap) (a, b) := by
  by_cases hshare : a.sharesRoot b = true
  · exact .of_now fun cap => if_pos hshare
  · have hsearch := compare_eq_search (Bool.eq_false_iff.mpr hshare)
    intro n c x hnc hx
    show (a.compare b c).answer = .ok x ∧ (a.compare b c).state = (a.compare b n).state
    rw [show (a.compare b n).answer = _ from congrArg Outcome.answer (hsearch n)] at hx
    obtain ⟨hanswer, hstate⟩ := search_answersStably Contest.decide? Contest.step
      ⟨a, b, true⟩ n c x hnc hx
    rw [hsearch, hsearch]
    exact ⟨hanswer, congrArg (fun s : Contest => (s.left, s.right)) hstate⟩

include ha hb

/-- Roots that a comparison did not tell apart are different numbers, and are known to be
so. -/
theorem ne_of_compare_error {n : Nat} {e : AlgebraicError}
    (h : (a.compare b n).answer = .error e) : α ≠ β := by
  intro heq
  obtain ⟨s, t, hres, -⟩ := compare_of_eq ha hb heq n
  rw [hres] at h
  cases h

theorem sharesRoot_eq_false (hne : α ≠ β) : a.sharesRoot b = false := by
  rw [Bool.eq_false_iff]
  exact fun hshare => hne (eq_of_sharesRoot ha hb hshare)

/-- The contest that a failed search of even length leaves is one to start from: it is
between the same numbers, and it is the turn of the left root. -/
theorem exists_contest_of_search_error {n : Nat} (hn : Even n) {e : AlgebraicError}
    (h : (search Contest.decide? Contest.step n ⟨a, b, true⟩).answer = .error e) :
    ∃ s t, (search Contest.decide? Contest.step n ⟨a, b, true⟩).state = ⟨s, t, true⟩
      ∧ s.Isolates α ∧ t.Isolates β := by
  rcases search_cases Contest.decide? Contest.step n ⟨a, b, true⟩ with
    ⟨_, _, _, _, _, _, hres⟩ | ⟨_, hres⟩
  · rw [hres] at h
    cases h
  obtain ⟨k, rfl⟩ := even_iff_exists_two_mul.mp hn
  obtain ⟨hbetween, hturn, -⟩ :=
    Contest.iterate_step_halves (s := ⟨a, b, true⟩) ⟨ha, hb⟩ rfl k
  refine ⟨_, _, ?_, hbetween⟩
  rw [hres]
  exact Contest.eq_of_leftNext hturn

theorem compare_resumesAfter {n : Nat} (hn : Even n) :
    ResumesAfter (fun cap (s : IsolatedRoot × IsolatedRoot) => s.1.compare s.2 cap) (a, b) n := by
  intro e c he
  replace he : (a.compare b n).answer = .error e := he
  have hne := ne_of_compare_error ha hb he
  have hsearch := compare_eq_search (sharesRoot_eq_false ha hb hne)
  rw [hsearch] at he
  obtain ⟨s, t, hstate, hs, ht⟩ := exists_contest_of_search_error ha hb hn he
  -- different numbers have no common root later on, either
  have hagain := compare_eq_search (sharesRoot_eq_false hs ht hne) c
  obtain ⟨hanswer, hfinal⟩ := search_resumesAfter Contest.decide? Contest.step
    ⟨a, b, true⟩ n e c he
  rw [hstate] at hanswer hfinal
  have hleft : (a.compare b n).state = (s, t) := by
    rw [hsearch, Outcome.mapState, hstate]
  show (a.compare b (n + c)).answer
      = ((a.compare b n).state.1.compare (a.compare b n).state.2 c).answer.mapError _
    ∧ (a.compare b (n + c)).state
      = ((a.compare b n).state.1.compare (a.compare b n).state.2 c).state
  rw [hleft, hagain, hsearch]
  exact ⟨hanswer, congrArg (fun s : Contest => (s.left, s.right)) hfinal⟩

/-! ### The loop in turn

A failed attempt may have ended in either loop, with one of the roots known exactly or with
none. The second attempt starts with the loop for two roots in any case. -/

theorem compareInTurn_answersStably :
    AnswersStably (fun cap (s : IsolatedRoot × IsolatedRoot) => s.1.compareInTurn s.2 cap)
      (a, b) :=
  compare_answersStably.congr
    (P := fun s : IsolatedRoot × IsolatedRoot => s.1.Isolates α ∧ s.2.Isolates β)
    (fun cap _ hs => compare_eq_inTurn hs.1 hs.2 cap) ⟨ha, hb⟩

theorem compareInTurn_resumesAfter {n : Nat} (hn : Even n) :
    ResumesAfter (fun cap (s : IsolatedRoot × IsolatedRoot) => s.1.compareInTurn s.2 cap)
      (a, b) n := by
  refine (compare_resumesAfter ha hb hn).congr
    (P := fun s : IsolatedRoot × IsolatedRoot => s.1.Isolates α ∧ s.2.Isolates β)
    (fun cap _ hs => compare_eq_inTurn hs.1 hs.2 cap) ⟨ha, hb⟩ ⟨?_, ?_⟩
  · exact Operation.apply_isolates ha (.compareLeft b n)
  · exact Operation.apply_isolates hb (.compareRight a n)

end

end IsolatedRoot

/-! ## Numbers -/

namespace Number

section

variable (a b : Number) (limits : Limits)

theorem compare_answersStably :
    AnswersStably (fun cap (s : Number × Number) =>
      s.1.compare { limits with maxRefinements := cap } s.2) (a, b) := by
  cases a with
  | rational v m =>
      cases b with
      | rational w n => exact .of_now fun _ => rfl
      | root r =>
          have hr := search_answersStably (IsolatedRoot.compareValue? v) IsolatedRoot.refine r
          exact (hr.map (f := Ordering.swap)).mapState (f := fun t => (rational v m, root t))
            fun _ _ => rfl
  | root r =>
      cases b with
      | rational w n =>
          have hr := search_answersStably (IsolatedRoot.compareValue? w) IsolatedRoot.refine r
          exact hr.mapState (f := fun t => (root t, rational w n)) fun _ _ => rfl
      | root s =>
          exact AnswersStably.mapState (f := fun t => (root t.1, root t.2)) (s := (r, s))
            (fun _ _ => rfl) IsolatedRoot.compare_answersStably

variable {a b} {α β : ℝ} (ha : a.Denotes α) (hb : b.Denotes β)

include ha hb

theorem compare_resumesAfter {k : Nat} (hk : Even k) :
    ResumesAfter (fun cap (s : Number × Number) =>
      s.1.compare { limits with maxRefinements := cap } s.2) (a, b) k := by
  cases a with
  | rational v m =>
      cases b with
      | rational w n => exact .of_now (fun _ => rfl) k
      | root r =>
          have hr := search_resumesAfter (IsolatedRoot.compareValue? v) IsolatedRoot.refine r k
          exact (hr.map (f := Ordering.swap)).mapState (f := fun t => (rational v m, root t))
            fun _ _ => rfl
  | root r =>
      cases b with
      | rational w n =>
          have hr := search_resumesAfter (IsolatedRoot.compareValue? w) IsolatedRoot.refine r k
          exact hr.mapState (f := fun t => (root t, rational w n)) fun _ _ => rfl
      | root s =>
          exact ResumesAfter.mapState (f := fun t => (root t.1, root t.2)) (s := (r, s))
            (fun _ _ => rfl) (IsolatedRoot.compare_resumesAfter ha hb hk)

end

/-- **Failed queries can be resumed, and caps matter for failure only.** Let `r` be a root
and `a` and `b` numbers that can arise, with any history. Each query about `r` that has
an answer within some cap has the same answer, and leaves the same state, with every
higher cap; and if it fails, asking again with another cap gives the answer and leaves
the state that asking once with both caps together would have. The same holds for the
comparison of `a` and `b`, where the cap of the failed attempt has to be even.

The last part says the same of the loops that look once at the numbers in the way, and again
at the next attempt, in a smaller interval, and of the comparison in turn, which hands over
to another loop when one of the roots is met. -/
theorem failed_queries_resume {r : IsolatedRoot} {γ : ℝ} (hr : (root r).Reaches γ)
    {a b : Number} {α β : ℝ} (ha : a.Reaches α) (hb : b.Reaches β) (limits : Limits) :
    (∀ ev q, Resumes (fun cap s => s.signOf ev q cap) r)
      ∧ (∀ query, Resumes (fun cap s => s.containedIn query cap) r)
      ∧ (∀ v, Resumes (fun cap s => s.compareValue v cap) r)
      ∧ Resumes (fun cap s => s.branchingPoint cap) r
      ∧ Resumes (fun cap s => s.refineToPrecision { limits with maxRefinements := cap }) r
      ∧ AnswersStably (fun cap (s : Number × Number) =>
        s.1.compare { limits with maxRefinements := cap } s.2) (a, b)
      ∧ (∀ k, Even k → ResumesAfter (fun cap (s : Number × Number) =>
        s.1.compare { limits with maxRefinements := cap } s.2) (a, b) k)
      ∧ (∀ query, Resumes (fun cap s => s.containedInOnce query cap) r)
      ∧ (∀ v, Resumes (fun cap s => s.compareValueOnce v cap) r)
      ∧ ∀ (s : IsolatedRoot) (δ : ℝ), (root s).Reaches δ →
        AnswersStably (fun cap (t : IsolatedRoot × IsolatedRoot) =>
          t.1.compareInTurn t.2 cap) (r, s)
        ∧ ∀ k, Even k → ResumesAfter (fun cap (t : IsolatedRoot × IsolatedRoot) =>
          t.1.compareInTurn t.2 cap) (r, s) k := by
  have hiso : r.Isolates γ := hr.denotes
  refine ⟨fun ev q => ⟨?_, fun k => ?_⟩, fun query => search_resumes _ _ r,
    fun v => search_resumes _ _ r, search_resumes _ _ r, ?_, ?_, fun k hk => ?_,
    IsolatedRoot.containedInOnce_resumes hiso, IsolatedRoot.compareValueOnce_resumes hiso,
    fun s δ hs => ⟨?_, fun k hk => ?_⟩⟩
  · exact IsolatedRoot.signOf_answersStably hiso ev q
  · exact IsolatedRoot.signOf_resumesAfter hiso ev q k
  · -- the width aimed at does not depend on the cap
    exact search_resumes (IsolatedRoot.refined? (IsolatedRoot.narrowerThan limits.targetWidth)) _ r
  · exact compare_answersStably a b limits
  · exact compare_resumesAfter limits ha.denotes hb.denotes hk
  · exact IsolatedRoot.compareInTurn_answersStably hiso hs.denotes
  · exact IsolatedRoot.compareInTurn_resumesAfter hiso hs.denotes hk

/-- The positive root of `x² - 2`, told apart from `7/5` in two attempts of two and three
bisections: one attempt of five gives the same answer. Told apart from the positive root of
`1000x² - 2001` in turn, a second attempt of thirty bisections after one of four does what
one attempt of thirty-four does. -/
theorem failed_queries_resume_sqrt_two :
    ∃ r γ s δ, (root r).Reaches γ ∧ r.poly = .ofCoeffs [-2, 0, 1]
      ∧ (root s).Reaches δ ∧ s.poly = .ofCoeffs [-2001, 0, 1000]
      ∧ (r.compareValue (7 / 5) 2).answer = .error (.notConverged 2)
      ∧ ((r.compareValue (7 / 5) 2).state.compareValue (7 / 5) 3).answer = .ok .gt
      ∧ (r.compareValue (7 / 5) 5).answer = .ok .gt
      ∧ (r.compareInTurn s 4).answer = .error (.notConverged 4)
      ∧ ((r.compareInTurn s 4).state.1.compareInTurn (r.compareInTurn s 4).state.2 30).state
        = (r.compareInTurn s 34).state
      ∧ (r.compareInTurn s 34).answer = .ok .lt := by
  have hleft : ∃ γ, (root ⟨.ofPoly (.ofCoeffs [-2, 0, 1]), .between 0 3, false, 0⟩).Reaches γ :=
    exists_reaches_of_locate (I := ⟨.finite 0 false, .infinite⟩) (by decide) (by decide +kernel)
      (by decide +kernel) false
  have hright : ∃ δ, (root ⟨.ofPoly (.ofCoeffs [-2001, 0, 1000]), .between 1 2, false,
      0⟩).Reaches δ :=
    exists_reaches_of_locate (I := .between 1 2) (by decide) (by decide +kernel)
      (by decide +kernel) false
  obtain ⟨γ, hr⟩ := hleft
  obtain ⟨δ, hs⟩ := hright
  have hfirst : (IsolatedRoot.compareValue (7 / 5) 2
      ⟨.ofPoly (.ofCoeffs [-2, 0, 1]), .between 0 3, false, 0⟩).answer
        = .error (.notConverged 2) := by decide +kernel
  have hsecond : (IsolatedRoot.compareValue (7 / 5) 3 (IsolatedRoot.compareValue (7 / 5) 2
      ⟨.ofPoly (.ofCoeffs [-2, 0, 1]), .between 0 3, false, 0⟩).state).answer
        = .ok .gt := by decide +kernel
  obtain ⟨-, -, hvalue, -, -, -, -, -, -, hturn⟩ := failed_queries_resume hr hr hr {}
  obtain ⟨hboth, -⟩ := (hvalue (7 / 5)).2 2 _ 3 hfirst
  -- the loop in turn is evaluated as the search that it is
  have heq := IsolatedRoot.compare_eq_inTurn hr.denotes hs.denotes
  have hfails := (congrArg Outcome.answer (heq 4)).symm.trans
    (by decide +kernel : _ = Except.error (AlgebraicError.notConverged 4))
  have hanswer := (congrArg Outcome.answer (heq 34)).symm.trans
    (by decide +kernel : _ = Except.ok Ordering.lt)
  obtain ⟨-, hstate⟩ := (hturn _ δ hs).2 4 (by decide) _ 30 hfails
  exact ⟨_, γ, _, δ, hr, rfl, hs, rfl, hfirst, hsecond,
    hboth.trans (congrArg (Except.mapError _) hsecond), hfails, hstate.symm, hanswer⟩

end Number

end AlgebraicReals
