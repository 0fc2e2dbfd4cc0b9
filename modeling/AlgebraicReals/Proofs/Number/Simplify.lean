import Mathlib
import AlgebraicReals.Proofs.Context.Sessions
import AlgebraicReals.Proofs.IsolatedRoot.Loops

set_option autoImplicit false

/-! # Simplification cannot be noticed

A root whose value has been found and the rational number that `Number.simplify` turns it
into are different data, and every query has its own code for each of them. Here a number
is asked any sequence of questions, among them comparisons on either side with other
numbers that are refined on the way, and it is shown that the answers and the other
numbers do not depend on which of the two it is.

For a query about one number this is a glance at its first test, which a known value
always passes. A comparison of two roots runs a search on both; if one of them is known
exactly, the search is seen to be the one that compares the other root with a rational
number (`IsolatedRoot.compare_of_left_exact`, `IsolatedRoot.compare_of_right_exact`). -/

namespace AlgebraicReals

/-! ## Queries about a root with a known value -/

namespace IsolatedRoot

section

variable {r : IsolatedRoot} {v : Rat} (hloc : r.location = .exact v)

include hloc

theorem signOf_of_exact (ev : Evaluator) (q : Poly) (cap : Nat) :
    r.signOf ev q cap = .now (Sign.ofRat (ev.valueAt q v)) r := by
  simp only [signOf, hloc]

theorem branchingPoint_of_exact (cap : Nat) : r.branchingPoint cap = .now v r := by
  refine search_of_answer ?_ cap
  simp only [branchingPoint?, hloc]

theorem containedIn_of_exact (query : Interval) (cap : Nat) :
    r.containedIn query cap = .now (query.contains v) r := by
  refine search_of_answer ?_ cap
  simp only [containedIn?, hloc]

theorem compareValue_of_exact (w : Rat) (cap : Nat) :
    r.compareValue w cap = .now (Rational.order v w) r :=
  search_of_answer (compareValue?_of_exact hloc w) cap

theorem refineToPrecision_of_exact (limits : Limits) :
    r.refineToPrecision limits = .now .collapsed r := by
  refine search_of_answer ?_ limits.maxRefinements
  simp only [refined?, isExact, hloc, Location.isExact, if_true]

end

end IsolatedRoot

/-! ## Questions to a number in company -/

/-- A question to a number. Where it is compared, the other number is one of many. -/
inductive Query where
  | sign
  | isZero
  | approximation
  | signOf (ev : Evaluator) (q : Poly) (limits : Limits)
  | containedIn (query : Interval) (limits : Limits)
  | branchingPoint (limits : Limits)
  | refineToPrecision (limits : Limits)
  /-- How the number compares with another one. -/
  | compareWith (other : Nat) (limits : Limits)
  /-- How another number compares with the number. -/
  | compareFrom (other : Nat) (limits : Limits)

/-- A number and the other numbers that it is compared with. -/
structure Company where
  subject : Number
  others : Nat → Number

namespace Company

/-- The company after a query about the subject alone, with the reply. -/
def settle {α : Type} (c : Company) (reply : α → Reply) (o : Outcome Number α) :
    Reply × Company :=
  (.ofAnswer reply o.answer, ⟨o.state, c.others⟩)

/-- The reply to a question, and what it leaves of all numbers. -/
def ask (c : Company) : Query → Reply × Company
  | .sign => (.sign c.subject.sign, c)
  | .isZero => (.truth c.subject.isZero, c)
  | .approximation => (.value c.subject.approximation, c)
  | .signOf ev q limits => c.settle .sign (c.subject.signOf ev q limits)
  | .containedIn query limits => c.settle .truth (c.subject.containedIn query limits)
  | .branchingPoint limits => c.settle .value (c.subject.branchingPoint limits)
  | .refineToPrecision limits => c.settle .refinement (c.subject.refineToPrecision limits)
  | .compareWith other limits =>
    let o := c.subject.compare limits (c.others other)
    (.ofAnswer .order o.answer, ⟨o.state.1, Function.update c.others other o.state.2⟩)
  | .compareFrom other limits =>
    let o := (c.others other).compare limits c.subject
    (.ofAnswer .order o.answer, ⟨o.state.2, Function.update c.others other o.state.1⟩)

/-- What can be noticed while questions are asked: each reply, and after it the state of
all the other numbers. -/
def answers (c : Company) : List Query → List (Reply × (Nat → Number))
  | [] => []
  | query :: queries =>
    let next := c.ask query
    (next.1, next.2.others) :: next.2.answers queries

end Company

namespace Number

/-- A rational number stays what it is, whatever it is asked. -/
theorem subject_ask_rational (v : Rat) (mark : Bool) (others : Nat → Number) (query : Query) :
    (Company.ask ⟨rational v mark, others⟩ query).2.subject = rational v mark := by
  cases query with
  | compareWith other limits =>
      show ((rational v mark).compare limits (others other)).state.1 = rational v mark
      cases others other with
      | rational w n => rfl
      | root s => rfl
  | compareFrom other limits =>
      show ((others other).compare limits (rational v mark)).state.2 = rational v mark
      cases others other with
      | rational w n => rfl
      | root s => rfl
  | _ => rfl

section

variable {r : IsolatedRoot} {v : Rat} (hloc : r.location = .exact v) (mark : Bool)

include hloc

/-- Against a rational number two rationals are compared, against a root the search of
`IsolatedRoot.compare_of_left_exact` is run. -/
theorem compare_root_left (limits : Limits) (b : Number) :
    (root r).compare limits b
      = ((rational v mark).compare limits b).mapState fun s => (root r, s.2) := by
  cases b with
  | rational w n =>
      simp only [Number.compare, IsolatedRoot.compareValue_of_exact hloc]
      rfl
  | root s =>
      simp only [Number.compare, IsolatedRoot.compare_of_left_exact hloc]
      rfl

theorem compare_root_right (limits : Limits) (b : Number) :
    b.compare limits (root r)
      = (b.compare limits (rational v mark)).mapState fun s => (s.1, root r) := by
  cases b with
  | rational w n =>
      simp only [Number.compare, IsolatedRoot.compareValue_of_exact hloc]
      show Outcome.now (Rational.order v w).swap (rational w n, root r) = _
      rw [Rational.swap_order]
      rfl
  | root s =>
      simp only [Number.compare, IsolatedRoot.compare_of_right_exact hloc]
      rfl

/-- One question does not tell the two apart, and does not change the root either. -/
theorem ask_root (others : Nat → Number) (query : Query) :
    Company.ask ⟨root r, others⟩ query
      = ((Company.ask ⟨rational v mark, others⟩ query).1,
          ⟨root r, (Company.ask ⟨rational v mark, others⟩ query).2.others⟩) := by
  cases query with
  | sign => simp only [Company.ask, Number.sign, IsolatedRoot.sign, hloc]
  | isZero => simp only [Company.ask, Number.isZero, IsolatedRoot.isZero, hloc]
  | approximation =>
      simp only [Company.ask, Number.approximation, IsolatedRoot.approximation, hloc]
  | signOf ev q limits =>
      simp only [Company.ask, Number.signOf, IsolatedRoot.signOf_of_exact hloc]
      rfl
  | containedIn query limits =>
      simp only [Company.ask, Number.containedIn, IsolatedRoot.containedIn_of_exact hloc]
      rfl
  | branchingPoint limits =>
      simp only [Company.ask, Number.branchingPoint, IsolatedRoot.branchingPoint_of_exact hloc]
      rfl
  | refineToPrecision limits =>
      simp only [Company.ask, Number.refineToPrecision,
        IsolatedRoot.refineToPrecision_of_exact hloc]
      rfl
  | compareWith other limits =>
      simp only [Company.ask, compare_root_left hloc mark]
      rfl
  | compareFrom other limits =>
      simp only [Company.ask, compare_root_right hloc mark]
      rfl

theorem answers_root (others : Nat → Number) (queries : List Query) :
    Company.answers ⟨root r, others⟩ queries
      = Company.answers ⟨rational v mark, others⟩ queries := by
  induction queries generalizing others with
  | nil => rfl
  | cons query queries ih =>
      have hstays := subject_ask_rational v mark others query
      simp only [Company.answers, ask_root hloc mark, ih]
      -- what is left is that the rational number goes on as it was
      generalize Company.ask ⟨rational v mark, others⟩ query = next at hstays
      rw [← hstays]

end

/-- **Simplifying a number cannot be noticed.** A number with a known value becomes that
rational number, with its mark, and any other number stays the same. Whatever questions
are asked in whatever order, under any limits and with any evaluator, each gets the same
reply, errors included, and leaves every number that was compared in the same state,
whether the number has been simplified or not. -/
theorem simplify_unnoticed (a : Number) :
    (∀ v, a.value? = some v → a.simplify = rational v a.isRoot)
      ∧ (a.value? = none → a.simplify = a)
      ∧ ∀ (others : Nat → Number) (queries : List Query),
        Company.answers ⟨a.simplify, others⟩ queries = Company.answers ⟨a, others⟩ queries := by
  cases a with
  | rational w mark =>
      refine ⟨fun v hv => ?_, fun _ => rfl, fun others queries => rfl⟩
      cases hv
      rfl
  | root r =>
      cases hloc : r.location with
      | exact w =>
          have hsimp : (root r).simplify = rational w r.isRoot := by
            simp only [simplify, hloc]
          have hvalue : (root r).value? = some w := by
            simp only [value?, IsolatedRoot.value?, hloc, Location.value?]
          rw [hsimp, hvalue]
          refine ⟨fun v hv => ?_, fun hnone => ?_, fun others queries => ?_⟩
          · cases hv
            rfl
          · cases hnone
          · exact (answers_root hloc r.isRoot others queries).symm
      | between l u =>
          have hsimp : (root r).simplify = root r := by
            simp only [simplify, hloc]
          have hvalue : (root r).value? = none := by
            simp only [value?, IsolatedRoot.value?, hloc, Location.value?]
          rw [hsimp, hvalue]
          refine ⟨fun v hv => ?_, fun _ => rfl, fun others queries => rfl⟩
          cases hv

end Number

end AlgebraicReals
