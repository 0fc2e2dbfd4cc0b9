import Mathlib
import AlgebraicReals.Search

set_option autoImplicit false

/-! # What a bounded search does

A search looks at the states `s`, `step s`, `step (step s)`, … one after the other
and stops at the first one that gives an answer, or after the last one its cap
allows. `search_cases` says this once, with the state, the answer and the number of
steps; the rest of the theory of queries refers to it and never to the loop. -/

namespace AlgebraicReals

section

variable {σ α : Type} (answer? : σ → Option (α × σ)) (step : σ → σ)

theorem searchFrom_cases (done cap : Nat) (s : σ) :
    (∃ k ≤ cap, ∃ a t, (∀ j < k, answer? (step^[j] s) = none)
        ∧ answer? (step^[k] s) = some (a, t)
        ∧ searchFrom answer? step done cap s = ⟨.ok a, t, done + k, 0⟩)
      ∨ (∀ j ≤ cap, answer? (step^[j] s) = none)
        ∧ searchFrom answer? step done cap s
          = ⟨.error (.notConverged (done + cap)), step^[cap] s, done + cap, 0⟩ := by
  induction cap generalizing done s with
  | zero =>
      cases h : answer? s with
      | some found =>
          obtain ⟨a, t⟩ := found
          refine .inl ⟨0, le_rfl, a, t, fun j hj => absurd hj (Nat.not_lt_zero j), h, ?_⟩
          simp only [searchFrom, h, Nat.add_zero]
      | none =>
          refine .inr ⟨fun j hj => ?_, ?_⟩
          · obtain rfl := Nat.le_zero.mp hj
            exact h
          · simp only [searchFrom, h, Nat.add_zero, Function.iterate_zero, id]
  | succ cap ih =>
      cases h : answer? s with
      | some found =>
          obtain ⟨a, t⟩ := found
          refine .inl ⟨0, Nat.zero_le _, a, t, fun j hj => absurd hj (Nat.not_lt_zero j), h, ?_⟩
          simp only [searchFrom, h, Nat.add_zero]
      | none =>
          -- the states from the next one on are the later states from here
          have hcons : ∀ m, (∀ j < m, answer? (step^[j] (step s)) = none) →
              ∀ j < m + 1, answer? (step^[j] s) = none := by
            intro m hm j hj
            cases j with
            | zero => exact h
            | succ j => exact hm j (by omega)
          have hloop : searchFrom answer? step done (cap + 1) s
              = searchFrom answer? step (done + 1) cap (step s) := by
            simp only [searchFrom, h]
          rw [hloop]
          rcases ih (done + 1) (step s) with ⟨k, hk, a, t, hnone, hsome, hres⟩ | ⟨hnone, hres⟩
          · refine .inl ⟨k + 1, by omega, a, t, hcons k hnone, hsome, ?_⟩
            rw [hres, Nat.add_right_comm, Nat.add_assoc]
          · refine .inr ⟨fun j hj => ?_, ?_⟩
            · exact hcons (cap + 1) (fun i hi => hnone i (by omega)) j (by omega)
            · rw [hres, Nat.add_right_comm, Nat.add_assoc, Function.iterate_succ_apply]

/-- **All a search can do**: stop at the first state with an answer, or run into the
cap when none of the states up to there has one. -/
theorem search_cases (cap : Nat) (s : σ) :
    (∃ k ≤ cap, ∃ a t, (∀ j < k, answer? (step^[j] s) = none)
        ∧ answer? (step^[k] s) = some (a, t)
        ∧ search answer? step cap s = ⟨.ok a, t, k, 0⟩)
      ∨ (∀ j ≤ cap, answer? (step^[j] s) = none)
        ∧ search answer? step cap s
          = ⟨.error (.notConverged cap), step^[cap] s, cap, 0⟩ := by
  have h := searchFrom_cases answer? step 0 cap s
  simp only [Nat.zero_add] at h
  exact h

variable {answer? step}

/-- An answer in the first state costs nothing. -/
theorem search_of_answer {s : σ} {a : α} {t : σ} (h : answer? s = some (a, t)) (cap : Nat) :
    search answer? step cap s = ⟨.ok a, t, 0, 0⟩ := by
  cases cap <;> simp only [search, searchFrom, h]

/-- A search succeeds if some state within its cap has an answer. -/
theorem search_ok_of_isSome {cap k : Nat} {s : σ} (hk : k ≤ cap)
    (h : (answer? (step^[k] s)).isSome) : ∃ a, (search answer? step cap s).answer = .ok a := by
  rcases search_cases answer? step cap s with ⟨_, _, a, _, _, _, hres⟩ | ⟨hnone, _⟩
  · exact ⟨a, by rw [hres]⟩
  · rw [hnone k hk] at h
    cases h

/-- What holds at the start and is kept by each step and by each answer holds of the
state a search leaves behind, whether it succeeds or not. -/
theorem search_state_of_invariant {P : σ → Prop} (hstep : ∀ s, P s → P (step s))
    (hanswer : ∀ s a t, P s → answer? s = some (a, t) → P t) {s : σ} (hs : P s) (cap : Nat) :
    P (search answer? step cap s).state := by
  have hiter : ∀ k, P (step^[k] s) := Function.Iterate.rec P hs hstep
  rcases search_cases answer? step cap s with ⟨k, _, a, t, _, hsome, hres⟩ | ⟨_, hres⟩
  · rw [hres]
    exact hanswer _ _ _ (hiter k) hsome
  · rw [hres]
    exact hiter cap

/-- What every answer, together with the state that it leaves, satisfies in states with an
invariant, the answer and the final state of a search satisfy. -/
theorem search_result_of_invariant {P : σ → Prop} {Q : α → σ → Prop}
    (hstep : ∀ s, P s → P (step s)) (hanswer : ∀ s a t, P s → answer? s = some (a, t) → Q a t)
    {s : σ} (hs : P s) {cap : Nat} {a : α} (h : (search answer? step cap s).answer = .ok a) :
    Q a (search answer? step cap s).state := by
  have hiter : ∀ k, P (step^[k] s) := Function.Iterate.rec P hs hstep
  rcases search_cases answer? step cap s with ⟨k, _, b, t, _, hsome, hres⟩ | ⟨_, hres⟩
  · rw [hres] at h ⊢
    cases h
    exact hanswer _ _ _ (hiter k) hsome
  · rw [hres] at h
    cases h

theorem search_answer_of_invariant {P : σ → Prop} {Q : α → Prop}
    (hstep : ∀ s, P s → P (step s)) (hanswer : ∀ s a t, P s → answer? s = some (a, t) → Q a)
    {s : σ} (hs : P s) {cap : Nat} {a : α} (h : (search answer? step cap s).answer = .ok a) :
    Q a :=
  search_result_of_invariant (Q := fun a _ => Q a) hstep hanswer hs h

/-! ## The first answer

Which state is the first with an answer does not depend on the cap. Two searches from
the same state, or one from a state that the other has reached, are compared by it. -/

theorem search_eq_ok {cap k : Nat} {s t : σ} {a : α} (hk : k ≤ cap)
    (hnone : ∀ j < k, answer? (step^[j] s) = none) (hsome : answer? (step^[k] s) = some (a, t)) :
    search answer? step cap s = ⟨.ok a, t, k, 0⟩ := by
  rcases search_cases answer? step cap s with ⟨i, _, b, u, hnone', hsome', hres⟩ | ⟨hnone', _⟩
  · have hik : i = k := by
      rcases lt_trichotomy i k with h | h | h
      · rw [hnone i h] at hsome'
        cases hsome'
      · exact h
      · rw [hnone' k h] at hsome
        cases hsome
    subst hik
    rw [hsome] at hsome'
    cases hsome'
    exact hres
  · rw [hnone' k hk] at hsome
    cases hsome

theorem search_eq_error {cap : Nat} {s : σ} (hnone : ∀ j ≤ cap, answer? (step^[j] s) = none) :
    search answer? step cap s = ⟨.error (.notConverged cap), step^[cap] s, cap, 0⟩ := by
  rcases search_cases answer? step cap s with ⟨k, hk, a, t, _, hsome, _⟩ | ⟨_, hres⟩
  · rw [hnone k hk] at hsome
    cases hsome
  · exact hres

end

/-! ## Two searches in step

Two searches that keep related states end alike. The final states are compared through
`view` and `look`; an answer may come with a state that is not related any more. -/

theorem Outcome.map_id {σ α : Type} (o : Outcome σ α) : o.map id = o := by
  rw [Outcome.map, Except.map_id]
  rfl

section

variable {σ τ ρ α β : Type} {answer? : σ → Option (α × σ)} {step : σ → σ}
  {found? : τ → Option (β × τ)} {move : τ → τ} {R : σ → τ → Prop}
  (hstep : ∀ s t, R s t → R (step s) (move t))

include hstep

theorem related_iterate {s : σ} {t : τ} (hst : R s t) (k : Nat) :
    R (step^[k] s) (move^[k] t) := by
  induction k with
  | zero => exact hst
  | succ k ih =>
      rw [Function.iterate_succ_apply', Function.iterate_succ_apply']
      exact hstep _ _ ih

theorem search_mapState_eq {view : σ → ρ} {look : τ → ρ} {f : β → α}
    (hview : ∀ s t, R s t → view s = look t)
    (hanswer : ∀ s t, R s t →
      (answer? s).map (Prod.map id view) = (found? t).map (Prod.map f look))
    {s : σ} {t : τ} (hst : R s t) (cap : Nat) :
    (search answer? step cap s).mapState view
      = ((search found? move cap t).map f).mapState look := by
  have hnone : ∀ k, answer? (step^[k] s) = none → found? (move^[k] t) = none := by
    intro k hk
    have h := hanswer _ _ (related_iterate hstep hst k)
    rw [hk, Option.map_none, eq_comm, Option.map_eq_none_iff] at h
    exact h
  rcases search_cases answer? step cap s with ⟨k, hk, a, s', hbefore, hsome, hres⟩ | ⟨hall, hres⟩
  · have h := hanswer _ _ (related_iterate hstep hst k)
    rw [hsome, Option.map_some, eq_comm, Option.map_eq_some_iff] at h
    obtain ⟨⟨b, t'⟩, hb, hbt⟩ := h
    obtain ⟨rfl, hlook⟩ := Prod.mk.inj hbt
    rw [hres, search_eq_ok hk (fun j hj => hnone j (hbefore j hj)) hb]
    simp only [Outcome.mapState, Outcome.map, hlook]
    rfl
  · rw [hres, search_eq_error fun j hj => hnone j (hall j hj), Outcome.mapState,
      hview _ _ (related_iterate hstep hst cap)]
    rfl

end

/-! ## Loops one after the other

A loop that hands over to another one counts its own steps in, in the outcome and in the
error. A loop that only looks for the state to stop at leaves the answer to be read off
that state. -/

/-- The error with the steps of an earlier attempt counted in. -/
def AlgebraicError.after (done : Nat) : AlgebraicError → AlgebraicError
  | notConverged steps => notConverged (done + steps)
  | e => e

namespace Outcome

variable {σ α β : Type}

/-- The outcome of a loop that was started after `done` steps of another one. -/
def after (done : Nat) (o : Outcome σ α) : Outcome σ α :=
  ⟨o.answer.mapError (.after done), o.state, done + o.steps, o.enclosures⟩

/-- The outcome with the answer read off the state that is left. -/
def readOff (f : α → σ → β) (o : Outcome σ α) : Outcome σ β :=
  ⟨o.answer.map (f · o.state), o.state, o.steps, o.enclosures⟩

theorem after_zero (o : Outcome σ α) : o.after 0 = o := by
  obtain ⟨answer, state, steps, enclosures⟩ := o
  simp only [after, Nat.zero_add]
  rcases answer with (_ | _ | _ | _) | x
  all_goals simp only [Except.mapError, AlgebraicError.after, Nat.zero_add]

theorem after_after (more done : Nat) (o : Outcome σ α) :
    (o.after more).after done = o.after (done + more) := by
  obtain ⟨answer, state, steps, enclosures⟩ := o
  have hsteps : done + (more + steps) = done + more + steps := (Nat.add_assoc done more steps).symm
  simp only [after, hsteps]
  rcases answer with (_ | _ | _ | _) | x
  all_goals simp only [Except.mapError, AlgebraicError.after, Nat.add_assoc]

end Outcome

section

variable {σ α β : Type} {answer? : σ → Option (α × σ)} {step : σ → σ}

/-- Steps made before a search only add to its count. -/
theorem searchFrom_add (done more cap : Nat) (s : σ) :
    searchFrom answer? step (done + more) cap s
      = (searchFrom answer? step more cap s).after done := by
  induction cap generalizing more s with
  | zero =>
      unfold searchFrom
      split
      · rfl
      · rfl
  | succ cap ih =>
      unfold searchFrom
      split
      · rfl
      · exact ih (more + 1) (step s)

/-- Without an answer in its first state a search goes on from the next one, with one step
more done and one less to do. -/
theorem search_after_of_none {s : σ} (h : answer? s = none) {done cap : Nat} (hlt : done < cap) :
    (search answer? step (cap - done) s).after done
      = (search answer? step (cap - (done + 1)) (step s)).after (done + 1) := by
  have hcap : cap - done = cap - (done + 1) + 1 := by omega
  have hloop : search answer? step (cap - done) s
      = searchFrom answer? step (1 + 0) (cap - (done + 1)) (step s) := by
    rw [hcap, search, searchFrom, h]
  rw [hloop, searchFrom_add, Outcome.after_after]
  rfl

/-- Two tests that agree along a search stop it in the same state; what one of them
answers may be read off that state. -/
theorem search_eq_readOff {P : σ → Prop} {found? : σ → Option (β × σ)} {f : β → σ → α}
    (hstep : ∀ s, P s → P (step s))
    (hanswer : ∀ s, P s → answer? s = (found? s).map fun x => (f x.1 x.2, x.2))
    {s : σ} (hs : P s) (cap : Nat) :
    search answer? step cap s = (search found? step cap s).readOff f := by
  have hiter : ∀ k, P (step^[k] s) := Function.Iterate.rec P hs hstep
  rcases search_cases found? step cap s with ⟨k, hk, b, t, hnone, hsome, hres⟩ | ⟨hnone, hres⟩
  · have hfirst : answer? (step^[k] s) = some (f b t, t) := by
      rw [hanswer _ (hiter k), hsome, Option.map_some]
    rw [hres, search_eq_ok hk (fun j hj => ?_) hfirst]
    · rfl
    · rw [hanswer _ (hiter j), hnone j hj, Option.map_none]
  · rw [hres, search_eq_error fun j hj => ?_]
    · rfl
    · rw [hanswer _ (hiter j), hnone j hj, Option.map_none]

end

end AlgebraicReals
