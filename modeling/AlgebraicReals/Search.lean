import AlgebraicReals.Error

set_option autoImplicit false

/-! # Bounded search

Every query about an algebraic number works the same way: look whether the
present state decides it, and if not, bisect once and look again, until a cap on
the number of bisections is reached. `search` is that loop for any state. A query
that runs into the cap fails, but the state it reached is kept, so that asking
again goes on from there. -/

namespace AlgebraicReals

/-- What a query leaves behind. -/
structure Outcome (σ α : Type) where
  /-- The answer, or why there is none. -/
  answer : Except AlgebraicError α
  /-- The state after the query. -/
  state : σ
  /-- The number of bisections made. -/
  steps : Nat
  /-- The number of ranges of a polynomial computed. -/
  enclosures : Nat

namespace Outcome

/-- The outcome of a query that is decided without bisection. -/
def now {σ α : Type} (a : α) (s : σ) : Outcome σ α :=
  ⟨.ok a, s, 0, 0⟩

/-- The outcome with the answer seen another way. -/
def map {σ α β : Type} (f : α → β) (o : Outcome σ α) : Outcome σ β :=
  ⟨o.answer.map f, o.state, o.steps, o.enclosures⟩

/-- The outcome with the state seen another way. -/
def mapState {σ τ α : Type} (f : σ → τ) (o : Outcome σ α) : Outcome τ α :=
  ⟨o.answer, f o.state, o.steps, o.enclosures⟩

end Outcome

/-- The search loop after `done` steps, with at most `cap` more to make. An answer
may come with a change of state. -/
def searchFrom {σ α : Type} (answer? : σ → Option (α × σ)) (step : σ → σ) (done : Nat) :
    Nat → σ → Outcome σ α
  | 0, s =>
    match answer? s with
    | some (a, t) => ⟨.ok a, t, done, 0⟩
    | none => ⟨.error (.notConverged done), s, done, 0⟩
  | cap + 1, s =>
    match answer? s with
    | some (a, t) => ⟨.ok a, t, done, 0⟩
    | none => searchFrom answer? step (done + 1) cap (step s)

/-- Steps until the state gives an answer, at most `cap` times. -/
def search {σ α : Type} (answer? : σ → Option (α × σ)) (step : σ → σ) (cap : Nat) (s : σ) :
    Outcome σ α :=
  searchFrom answer? step 0 cap s

end AlgebraicReals
