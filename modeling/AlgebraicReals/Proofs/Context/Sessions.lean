import Mathlib
import AlgebraicReals.Proofs.Number.Construction

set_option autoImplicit false

/-! # Sessions

A session keeps numbers under names and carries out one request after the other. It does
so on a `Calculator`, which provides the operations on numbers and may have a state of
its own. There are two calculators: numbers by themselves (`Calculator.plain`), without
any state, and a context (`Calculator.context`), which shares the Sturm chains of
polynomials it has met and counts the work done.

A client cannot tell them apart. What has to be shown is one square for each operation
(`Calculator.Simulates`): from matching states both calculators give the same result and
go on to matching states. A context matches the plain calculator as long as it has its
limits and its evaluator, whatever it has interned. -/

namespace AlgebraicReals

/-! ## Requests and replies -/

/-- A step of a session. -/
inductive Request where
  /-- Puts a rational number under a name. -/
  | rational (target : String) (v : Rat) (mark : Bool)
  /-- Puts the root of a polynomial in an interval under a name, if there is one. -/
  | root (target : String) (p : Poly) (I : Interval) (mark : Bool)
  /-- Puts a copy of a number under another name. -/
  | clone (name target : String)
  | setIsRoot (name : String) (mark : Bool)
  | simplify (name : String)
  | sign (name : String)
  | signOf (name : String) (q : Poly)
  /-- Compares two numbers. If both names are the same, the second number is a copy that
  is not kept. -/
  | compare (name other : String)
  | containedIn (name : String) (query : Interval)
  | branchingPoint (name : String)
  | refineToPrecision (name : String)

/-- What a step of a session answers. -/
inductive Reply where
  | done
  /-- There is no number of that name. -/
  | unknown
  | sign (s : Sign)
  | order (o : Ordering)
  | truth (b : Bool)
  | value (v : Rat)
  | refinement (r : Refinement)
  | failed (e : AlgebraicError)

/-- The reply to a query, given how its answers are replied. -/
def Reply.ofAnswer {α : Type} (reply : α → Reply) : Except AlgebraicError α → Reply
  | .ok a => reply a
  | .error e => .failed e

/-! ## Calculators -/

/-- The operations on numbers that a session needs, on a state that they may read and
change. -/
structure Calculator (σ : Type) where
  root : σ → Poly → Interval → Bool → Except AlgebraicError Number × σ
  sign : σ → Number → Sign × σ
  signOf : σ → Number → Poly → Outcome Number Sign × σ
  compare : σ → Number → Number → Outcome (Number × Number) Ordering × σ
  containedIn : σ → Number → Interval → Outcome Number Bool × σ
  branchingPoint : σ → Number → Outcome Number Rat × σ
  refineToPrecision : σ → Number → Outcome Number Refinement × σ

/-- The operations of numbers themselves, with Horner evaluation. -/
def Calculator.plain (limits : Limits) : Calculator Unit where
  root _ p I mark := (Number.ofRoot p I mark, ())
  sign _ a := (a.sign, ())
  signOf _ a q := (a.signOf .horner q limits, ())
  compare _ a b := (a.compare limits b, ())
  containedIn _ a query := (a.containedIn query limits, ())
  branchingPoint _ a := (a.branchingPoint limits, ())
  refineToPrecision _ a := (a.refineToPrecision limits, ())

/-- The operations of a context. -/
def Calculator.context : Calculator Context where
  root := Context.createRoot
  sign := Context.sign
  signOf := Context.signOf
  compare := Context.compare
  containedIn := Context.containedIn
  branchingPoint := Context.branchingPoint
  refineToPrecision := Context.refineToPrecision

/-! ## Steps of a session -/

/-- A calculator's state and the numbers kept by name. -/
structure Session (σ : Type) where
  state : σ
  numbers : String → Option Number

namespace Session

variable {σ α : Type}

/-- The session with a number put under a name. -/
def put (s : Session σ) (name : String) (a : Number) : Session σ :=
  ⟨s.state, Function.update s.numbers name (some a)⟩

/-- The session with the calculator in another state. -/
def withState (s : Session σ) (t : σ) : Session σ :=
  ⟨t, s.numbers⟩

/-- Puts what is made of one number under a name. -/
def edit (s : Session σ) (name target : String) (f : Number → Number) : Reply × Session σ :=
  match s.numbers name with
  | none => (.unknown, s)
  | some a => (.done, s.put target (f a))

/-- Asks a query about one number, which stays refined. -/
def query (s : Session σ) (name : String) (reply : α → Reply)
    (ask : σ → Number → Outcome Number α × σ) : Reply × Session σ :=
  match s.numbers name with
  | none => (.unknown, s)
  | some a =>
    let found := ask s.state a
    (.ofAnswer reply found.1.answer, (s.withState found.2).put name found.1.state)

end Session

namespace Calculator

variable {σ : Type}

/-- The reply to a request, and the session after it. -/
def step (C : Calculator σ) (s : Session σ) : Request → Reply × Session σ
  | .rational target v mark => (.done, s.put target (.rational v mark))
  | .root target p I mark =>
    let made := C.root s.state p I mark
    match made.1 with
    | .ok a => (.done, (s.withState made.2).put target a)
    | .error e => (.failed e, s.withState made.2)
  | .clone name target => s.edit name target id
  | .setIsRoot name mark => s.edit name name (·.setIsRoot mark)
  | .simplify name => s.edit name name Number.simplify
  | .sign name =>
    match s.numbers name with
    | none => (.unknown, s)
    | some a =>
      let found := C.sign s.state a
      (.sign found.1, s.withState found.2)
  | .signOf name q => s.query name .sign fun t a => C.signOf t a q
  | .compare name other =>
    match s.numbers name, s.numbers other with
    | some a, some b =>
      let found := C.compare s.state a b
      (.ofAnswer .order found.1.answer,
        ((s.withState found.2).put other found.1.state.2).put name found.1.state.1)
    | _, _ => (.unknown, s)
  | .containedIn name query => s.query name .truth fun t a => C.containedIn t a query
  | .branchingPoint name => s.query name .value C.branchingPoint
  | .refineToPrecision name => s.query name .refinement C.refineToPrecision

/-- What a client sees of a session: after each step the reply and all numbers. -/
def trace (C : Calculator σ) (s : Session σ) :
    List Request → List (Reply × (String → Option Number))
  | [] => []
  | request :: requests =>
    let next := C.step s request
    (next.1, next.2.numbers) :: C.trace next.2 requests

end Calculator

/-! ## Simulation -/

section

variable {σ τ α : Type}

/-- The same result with matching states. -/
def Agree (R : σ → τ → Prop) (x : α × σ) (y : α × τ) : Prop :=
  x.1 = y.1 ∧ R x.2 y.2

/-- From matching states, two calculators give the same results and go on to matching
states. -/
structure Calculator.Simulates (C : Calculator σ) (D : Calculator τ) (R : σ → τ → Prop) :
    Prop where
  root : ∀ s t p I mark, R s t → Agree R (C.root s p I mark) (D.root t p I mark)
  sign : ∀ s t a, R s t → Agree R (C.sign s a) (D.sign t a)
  signOf : ∀ s t a q, R s t → Agree R (C.signOf s a q) (D.signOf t a q)
  compare : ∀ s t a b, R s t → Agree R (C.compare s a b) (D.compare t a b)
  containedIn : ∀ s t a query, R s t → Agree R (C.containedIn s a query) (D.containedIn t a query)
  branchingPoint : ∀ s t a, R s t → Agree R (C.branchingPoint s a) (D.branchingPoint t a)
  refineToPrecision : ∀ s t a, R s t → Agree R (C.refineToPrecision s a) (D.refineToPrecision t a)

/-- Two sessions with the same numbers on calculators in matching states. -/
def Session.Matches (R : σ → τ → Prop) (s : Session σ) (t : Session τ) : Prop :=
  R s.state t.state ∧ s.numbers = t.numbers

namespace Session

variable {R : σ → τ → Prop} {s : Session σ} {t : Session τ}

theorem Matches.put (h : Matches R s t) (name : String) (a : Number) :
    Matches R (s.put name a) (t.put name a) := by
  refine ⟨h.1, ?_⟩
  show Function.update s.numbers name (some a) = Function.update t.numbers name (some a)
  rw [h.2]

theorem Matches.withState (h : Matches R s t) {s' : σ} {t' : τ} (h' : R s' t') :
    Matches R (s.withState s') (t.withState t') :=
  ⟨h', h.2⟩

theorem edit_agree (h : Matches R s t) (name target : String) (f : Number → Number) :
    Agree (Matches R) (s.edit name target f) (t.edit name target f) := by
  rw [edit, edit, h.2]
  cases t.numbers name with
  | none => exact ⟨rfl, h⟩
  | some a => exact ⟨rfl, h.put target (f a)⟩

theorem query_agree (h : Matches R s t) (name : String) (reply : α → Reply)
    {ask : σ → Number → Outcome Number α × σ} {ask' : τ → Number → Outcome Number α × τ}
    (hask : ∀ a, Agree R (ask s.state a) (ask' t.state a)) :
    Agree (Matches R) (s.query name reply ask) (t.query name reply ask') := by
  rw [query, query, h.2]
  cases t.numbers name with
  | none => exact ⟨rfl, h⟩
  | some a =>
      obtain ⟨hresult, hstate⟩ := hask a
      simp only [hresult]
      exact ⟨rfl, (h.withState hstate).put name _⟩

end Session

namespace Calculator

open Session

variable {C : Calculator σ} {D : Calculator τ} {R : σ → τ → Prop} (hCD : C.Simulates D R)
  {s : Session σ} {t : Session τ}

include hCD

/-- A request gets the same reply on both calculators, and leaves the same numbers. -/
theorem step_agree (h : Matches R s t) (request : Request) :
    Agree (Matches R) (C.step s request) (D.step t request) := by
  cases request with
  | rational target v mark => exact ⟨rfl, h.put target _⟩
  | root target p I mark =>
      obtain ⟨hresult, hstate⟩ := hCD.root _ _ p I mark h.1
      simp only [step, hresult]
      cases (D.root t.state p I mark).1 with
      | error e => exact ⟨rfl, h.withState hstate⟩
      | ok a => exact ⟨rfl, (h.withState hstate).put target a⟩
  | clone name target => exact edit_agree h name target id
  | setIsRoot name mark => exact edit_agree h name name _
  | simplify name => exact edit_agree h name name _
  | sign name =>
      simp only [step, h.2]
      cases t.numbers name with
      | none => exact ⟨rfl, h⟩
      | some a =>
          obtain ⟨hresult, hstate⟩ := hCD.sign _ _ a h.1
          exact ⟨congrArg Reply.sign hresult, h.withState hstate⟩
  | signOf name q => exact query_agree h name _ fun a => hCD.signOf _ _ a q h.1
  | compare name other =>
      simp only [step, h.2]
      cases t.numbers name with
      | none => exact ⟨rfl, h⟩
      | some a =>
          cases t.numbers other with
          | none => exact ⟨rfl, h⟩
          | some b =>
              obtain ⟨hresult, hstate⟩ := hCD.compare _ _ a b h.1
              simp only [hresult]
              exact ⟨rfl, ((h.withState hstate).put other _).put name _⟩
  | containedIn name query => exact query_agree h name _ fun a => hCD.containedIn _ _ a query h.1
  | branchingPoint name => exact query_agree h name _ fun a => hCD.branchingPoint _ _ a h.1
  | refineToPrecision name => exact query_agree h name _ fun a => hCD.refineToPrecision _ _ a h.1

/-- A whole session looks the same on both calculators. -/
theorem trace_eq (h : Matches R s t) (requests : List Request) :
    C.trace s requests = D.trace t requests := by
  induction requests generalizing s t with
  | nil => rfl
  | cons request requests ih =>
      obtain ⟨hreply, hmatch⟩ := step_agree hCD h request
      simp only [trace]
      rw [hreply, hmatch.2, ih hmatch]

end Calculator

end

/-! ## Numbers of a context -/

/-- What a context has to have in common with the plain calculator: the polynomials it
has met and the work it has counted do not matter. -/
def Context.WorksUnder (ctx : Context) (limits : Limits) : Prop :=
  ctx.limits = limits ∧ ctx.evaluator = .horner

namespace Context

variable {ctx : Context} {limits : Limits}

theorem WorksUnder.createRoot (h : ctx.WorksUnder limits) (p : Poly) (I : Interval)
    (mark : Bool) : (ctx.createRoot p I mark).2.WorksUnder limits := by
  show (ctx.intern p).2.WorksUnder limits
  unfold intern
  split
  · exact h
  · exact h

/-- Each operation of a context gives what numbers give by themselves: a root comes out
the same whether its chain is new or was met before, and the queries are the same. -/
theorem simulates_plain (limits : Limits) :
    Calculator.context.Simulates (.plain limits) fun ctx _ => ctx.WorksUnder limits where
  root ctx _ p I mark h := ⟨ctx.createRoot_eq p I mark, h.createRoot p I mark⟩
  sign _ _ _ h := ⟨rfl, h⟩
  signOf ctx _ a q h := by
    refine ⟨?_, h⟩
    show a.signOf ctx.evaluator q ctx.limits = a.signOf .horner q limits
    rw [h.1, h.2]
  compare ctx _ a b h := ⟨congrArg (a.compare · b) h.1, h⟩
  containedIn ctx _ a query h := ⟨congrArg (a.containedIn query) h.1, h⟩
  branchingPoint ctx _ a h := ⟨congrArg a.branchingPoint h.1, h⟩
  refineToPrecision ctx _ a h := ⟨congrArg a.refineToPrecision h.1, h⟩

end Context

/-! ## Roots of one polynomial

Roots made in a context, and siblings, often have one polynomial. Whether two of them are
the same number can then be seen from its own chain, without a greatest common divisor. -/

theorem Poly.haveCommonRoot_self (p : Poly) (I : Interval) :
    p.haveCommonRoot p I = decide (0 < (SturmChain.ofPoly p).countRoots I) := by
  by_cases hp : p = .zero
  · -- the zero polynomial has too many roots to argue by them, but it is its own divisor
    subst hp
    have hgcd : gcd .zero .zero = zero := by
      rw [gcd]
      rfl
    rw [haveCommonRoot, hgcd]
    cases hI : I.isEmpty with
    | false => rfl
    | true => simp [SturmChain.countRoots, hI]
  · have hz : p.isZero = false := isZero_eq_false_of_ne hp
    rw [Bool.eq_iff_iff, haveCommonRoot_iff hz, decide_eq_true_iff,
      SturmChain.countRoots_pos_iff (c := .ofPoly p) hz]
    constructor
    · rintro ⟨x, hroot, -, hx⟩
      exact ⟨x, hroot, hx⟩
    · rintro ⟨x, hroot, hx⟩
      exact ⟨x, hroot, hroot, hx⟩

theorem IsolatedRoot.sharesRoot_eq (a b : IsolatedRoot) :
    a.sharesRoot b = (!a.isExact && !b.isExact &&
      if a.poly = b.poly then decide (0 < a.chain.countRoots (a.interval.inter b.interval))
      else a.poly.haveCommonRoot b.poly (a.interval.inter b.interval)) := by
  rw [sharesRoot]
  split
  · rename_i h
    rw [← h, Poly.haveCommonRoot_self, poly, ← a.chain.eq_ofPoly]
  · rfl

/-- **A context cannot be told from numbers by themselves.** Take any context that uses
Horner evaluation, new or with any polynomials met and any work done before, any numbers
kept by name, and any sequence of requests. The session on the context and the session on
the plain operations under the same limits give the same replies and errors, step by
step, and leave the same numbers after each step, down to the intervals, marks and
counters. Sharing chains does not show elsewhere, either: a sibling of a root is the root
made anew from its polynomial, or fails alike; and for roots of equal polynomials, to
count the roots of the chain where the intervals overlap decides what the greatest common
divisor does. -/
theorem Context.sessions_match_plain (ctx : Context) (numbers : String → Option Number)
    (requests : List Request) :
    Calculator.context.trace ⟨{ ctx with evaluator := .horner }, numbers⟩ requests
        = (Calculator.plain ctx.limits).trace ⟨(), numbers⟩ requests
      ∧ (∀ (r : IsolatedRoot) (I : Interval) (mark : Bool),
        r.sibling I mark = IsolatedRoot.ofPoly r.poly I mark)
      ∧ ∀ a b : IsolatedRoot, a.sharesRoot b = (!a.isExact && !b.isExact &&
        if a.poly = b.poly then decide (0 < a.chain.countRoots (a.interval.inter b.interval))
        else a.poly.haveCommonRoot b.poly (a.interval.inter b.interval)) := by
  refine ⟨?_, IsolatedRoot.sibling_eq, IsolatedRoot.sharesRoot_eq⟩
  exact Calculator.trace_eq (simulates_plain ctx.limits) ⟨⟨rfl, rfl⟩, rfl⟩ requests

end AlgebraicReals
