import AlgebraicReals.Number

set_option autoImplicit false

/-! # Contexts

A context is a place to work with algebraic numbers: it holds the limits and the
evaluator that queries use, keeps the Sturm chain of every polynomial it has
met, and counts the work done. Numbers made in a context behave as if made
without one. -/

namespace AlgebraicReals

/-- Counts of the work done. -/
structure Stats where
  /-- Bisections made by queries. -/
  refinements : Nat := 0
  /-- Questions for a sign. -/
  signEvaluations : Nat := 0
  /-- Comparisons of two numbers. -/
  comparisons : Nat := 0
  /-- Questions whether a number lies in an interval. -/
  containmentChecks : Nat := 0
  /-- Requests for a polynomial that had been met before. -/
  cacheHits : Nat := 0
deriving DecidableEq

/-- Limits, evaluator, polynomials met so far, and counts. -/
structure Context where
  /-- The limits of every query. -/
  limits : Limits
  /-- The evaluator that sign queries use. -/
  evaluator : Evaluator := .horner
  /-- The work done since the counts were last reset. -/
  stats : Stats := {}
  /-- The number of ranges of polynomials computed so far. -/
  enclosures : Nat := 0
  /-- The Sturm chains of the polynomials met so far, one for each. -/
  interned : List SturmChain := []

namespace Context

/-! ## Polynomials and numbers -/

/-- The Sturm chain of a polynomial, computed when it is first asked for. -/
def intern (ctx : Context) (p : Poly) : SturmChain × Context :=
  match ctx.interned.find? (fun c => c.source = p) with
  | some c => (c, { ctx with stats.cacheHits := ctx.stats.cacheHits + 1 })
  | none =>
    let c := SturmChain.ofPoly p
    (c, { ctx with interned := c :: ctx.interned })

/-- The root of a polynomial in an interval. -/
def createRoot (ctx : Context) (p : Poly) (I : Interval) (isRoot : Bool) :
    Except AlgebraicError Number × Context :=
  let (c, ctx) := ctx.intern p
  ((IsolatedRoot.ofChain c I isRoot).map .root, ctx)

/-- The root of a polynomial strictly between two numbers, which must not
cross. -/
def createRootBetween (ctx : Context) (p : Poly) (l u : Rat) (isRoot : Bool) :
    Except AlgebraicError Number × Context :=
  match Interval.ofEndpoints (.finite l false) (.finite u false) with
  | .error e => (.error (.interval e), ctx)
  | .ok I => ctx.createRoot p I isRoot

/-! ## Queries -/

/-- The context after a query that made the given number of bisections and
computed the given number of ranges. -/
def spend (ctx : Context) (steps enclosures : Nat) : Context :=
  { ctx with
    stats.refinements := ctx.stats.refinements + steps
    enclosures := ctx.enclosures + enclosures }

/-- An outcome together with the context that has paid for it. -/
def charge {σ α : Type} (ctx : Context) (o : Outcome σ α) : Outcome σ α × Context :=
  (o, ctx.spend o.steps o.enclosures)

/-- The sign of a number. -/
def sign (ctx : Context) (a : Number) : Sign × Context :=
  (a.sign, { ctx with stats.signEvaluations := ctx.stats.signEvaluations + 1 })

/-- The sign of `q` at a number. -/
def signOf (ctx : Context) (a : Number) (q : Poly) : Outcome Number Sign × Context :=
  { ctx with stats.signEvaluations := ctx.stats.signEvaluations + 1 }.charge
    (a.signOf ctx.evaluator q ctx.limits)

/-- How two numbers compare. -/
def compare (ctx : Context) (a b : Number) : Outcome (Number × Number) Ordering × Context :=
  { ctx with stats.comparisons := ctx.stats.comparisons + 1 }.charge
    (a.compare ctx.limits b)

/-- Whether a number lies in an interval. -/
def containedIn (ctx : Context) (a : Number) (query : Interval) : Outcome Number Bool × Context :=
  { ctx with stats.containmentChecks := ctx.stats.containmentChecks + 1 }.charge
    (a.containedIn query ctx.limits)

/-- A number to split the line at. -/
def branchingPoint (ctx : Context) (a : Number) : Outcome Number Rat × Context :=
  ctx.charge (a.branchingPoint ctx.limits)

/-- Refines a number to the precision asked for. -/
def refineToPrecision (ctx : Context) (a : Number) : Outcome Number Refinement × Context :=
  ctx.charge (a.refineToPrecision ctx.limits)

/-- Starts counting anew. -/
def resetStats (ctx : Context) : Context :=
  { ctx with stats := {} }

/-! ## Text -/

/-- A summary on one line: the limits, the counts and the number of polynomials
met. -/
def render (ctx : Context) : String :=
  "AlgebraicManager \x7b config: RefinementConfig \x7b max_refinements: "
    ++ Nat.repr ctx.limits.maxRefinements
    ++ ", precision_bits: " ++ Nat.repr ctx.limits.precisionBits
    ++ " \x7d, stats: AlgebraicStats \x7b refinements: " ++ Nat.repr ctx.stats.refinements
    ++ ", sign_evaluations: " ++ Nat.repr ctx.stats.signEvaluations
    ++ ", comparisons: " ++ Nat.repr ctx.stats.comparisons
    ++ ", containment_checks: " ++ Nat.repr ctx.stats.containmentChecks
    ++ ", cache_hits: " ++ Nat.repr ctx.stats.cacheHits
    ++ " \x7d, interned: " ++ Nat.repr ctx.interned.length ++ ", .. \x7d"

end Context

end AlgebraicReals
