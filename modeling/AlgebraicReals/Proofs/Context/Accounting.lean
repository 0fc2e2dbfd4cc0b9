import Mathlib
import AlgebraicReals.Context
import AlgebraicReals.Proofs.Number.Budget

set_option autoImplicit false

/-! # The counts of a context

A context counts the work it is asked for and keeps each polynomial it has met once. Here
its counts are compared with the calls that were made, in any order and about any numbers,
failed ones included.

Between two resets every call adds to the counts what it says (`Call.accounted`), and the
amounts of successive calls add up (`Accounted.append`). Two counts need an argument. The
bisections are those that the numbers have counted themselves, by `Outcome.KeepsTo`. And a
request for a polynomial is either a hit or makes the list of known polynomials longer, so
that only the sum of both is known from the calls; the length of the list alone is known
from the whole past, since a reset does not touch it (`Knows`). -/

namespace AlgebraicReals

/-- By how much a counter has grown during a query that was asked in the state `s`. -/
def Outcome.growth {σ α : Type} (count : σ → Nat) (s : σ) (o : Outcome σ α) : Int :=
  count o.state - count s

theorem Outcome.KeepsTo.growth_eq {σ α : Type} {count : σ → Nat} {cap : Nat} {s : σ}
    {o : Outcome σ α} (h : o.KeepsTo count cap s) : o.growth count s = o.steps := by
  rw [growth, h.counted]
  omega

namespace Context

/-! ## Calls -/

/-- A call to a context. A number stands for what it is when the call is made, whatever
has become of it before. -/
inductive Call where
  | withEvaluator (ev : Evaluator)
  | polynomial (p : Poly)
  | createRoot (p : Poly) (I : Interval) (mark : Bool)
  | createRootBetween (p : Poly) (l u : Rat) (mark : Bool)
  /-- Makes a rational number, which a context has no part in. -/
  | rational (v : Rat) (mark : Bool)
  | sign (a : Number)
  | signOf (a : Number) (q : Poly)
  | compare (a b : Number)
  | containedIn (a : Number) (query : Interval)
  | branchingPoint (a : Number)
  | refineToPrecision (a : Number)
  | resetStats

namespace Call

/-- The context after a call. -/
def apply (ctx : Context) : Call → Context
  | .withEvaluator ev => { ctx with evaluator := ev }
  | .polynomial p => (ctx.intern p).2
  | .createRoot p I mark => (ctx.createRoot p I mark).2
  | .createRootBetween p l u mark => (ctx.createRootBetween p l u mark).2
  | .rational _ _ => ctx
  | .sign a => (ctx.sign a).2
  | .signOf a q => (ctx.signOf a q).2
  | .compare a b => (ctx.compare a b).2
  | .containedIn a query => (ctx.containedIn a query).2
  | .branchingPoint a => (ctx.branchingPoint a).2
  | .refineToPrecision a => (ctx.refineToPrecision a).2
  | .resetStats => ctx.resetStats

/-- By how much the counters of the numbers that a call is about grow, both together in a
comparison. -/
def growth (ctx : Context) : Call → Int
  | .signOf a q => (ctx.signOf a q).1.growth Number.refinements a
  | .compare a b =>
    (ctx.compare a b).1.growth (fun s => s.1.refinements + s.2.refinements) (a, b)
  | .containedIn a query => (ctx.containedIn a query).1.growth Number.refinements a
  | .branchingPoint a => (ctx.branchingPoint a).1.growth Number.refinements a
  | .refineToPrecision a => (ctx.refineToPrecision a).1.growth Number.refinements a
  | _ => 0

def isReset : Call → Bool
  | .resetStats => true
  | _ => false

def asksSign : Call → Bool
  | .sign _ => true
  | .signOf _ _ => true
  | _ => false

def asksOrder : Call → Bool
  | .compare _ _ => true
  | _ => false

def asksMembership : Call → Bool
  | .containedIn _ _ => true
  | _ => false

/-- The polynomial whose Sturm chain a call asks for, whether or not there turns out to be
a root. Bounds that cross are refused before the polynomial is looked at. -/
def requested? : Call → Option Poly
  | .polynomial p => some p
  | .createRoot p _ _ => some p
  | .createRootBetween p l u _ => if l ≤ u then some p else none
  | _ => none

end Call

/-- The context after some calls. -/
def run (ctx : Context) (calls : List Call) : Context :=
  calls.foldl Call.apply ctx

/-- By how much the numbers' counters grow in some calls, altogether. -/
def growth (ctx : Context) : List Call → Int
  | [] => 0
  | call :: calls => call.growth ctx + growth (call.apply ctx) calls

theorem run_append (ctx : Context) (calls more : List Call) :
    ctx.run (calls ++ more) = (ctx.run calls).run more :=
  List.foldl_append

theorem growth_append (ctx : Context) (calls more : List Call) :
    ctx.growth (calls ++ more) = ctx.growth calls + (ctx.run calls).growth more := by
  induction calls generalizing ctx with
  | nil => exact (zero_add _).symm
  | cons call calls ih =>
      show call.growth ctx + (call.apply ctx).growth (calls ++ more) = _
      rw [ih, ← add_assoc]
      rfl

/-! ## Requests for polynomials -/

/-- The polynomials that a context has met. -/
def known (ctx : Context) : List Poly :=
  ctx.interned.map SturmChain.source

/-- A request for a known polynomial is a hit, any other makes it known. -/
theorem intern_cases (ctx : Context) (p : Poly) :
    p ∈ ctx.known
        ∧ (ctx.intern p).2 = { ctx with stats.cacheHits := ctx.stats.cacheHits + 1 }
      ∨ p ∉ ctx.known
        ∧ (ctx.intern p).2 = { ctx with interned := .ofPoly p :: ctx.interned } := by
  cases hfind : ctx.interned.find? (fun c => c.source = p) with
  | none =>
      refine .inr ⟨?_, by simp only [intern, hfind]⟩
      rw [List.find?_eq_none] at hfind
      simpa [known] using hfind
  | some c =>
      refine .inl ⟨?_, by simp only [intern, hfind]⟩
      have hsource : c.source = p := by simpa using List.find?_some hfind
      exact List.mem_map.mpr ⟨c, List.mem_of_find?_eq_some hfind, hsource⟩

/-- Either the hits or the known polynomials become one more. -/
theorem intern_adds (ctx : Context) (p : Poly) :
    ∃ hits interned,
      (ctx.intern p).2 = { ctx with stats.cacheHits := hits, interned := interned }
        ∧ hits + interned.length = ctx.stats.cacheHits + ctx.interned.length + 1 := by
  rcases ctx.intern_cases p with ⟨-, h⟩ | ⟨-, h⟩
  · exact ⟨_, ctx.interned, h, Nat.add_right_comm _ _ _⟩
  · exact ⟨ctx.stats.cacheHits, _, h, rfl⟩

theorem createRootBetween_snd (ctx : Context) (p : Poly) (l u : Rat) (mark : Bool) :
    (ctx.createRootBetween p l u mark).2 = if l ≤ u then (ctx.intern p).2 else ctx := by
  by_cases h : u < l
  · simp only [createRootBetween, Interval.ofEndpoints, if_pos h, if_neg (not_le.mpr h)]
  · simp only [createRootBetween, Interval.ofEndpoints, if_neg h, if_pos (not_lt.mp h)]
    rfl

namespace Call

variable {call : Call} {p : Poly}

theorem apply_of_requested (h : call.requested? = some p) (ctx : Context) :
    call.apply ctx = (ctx.intern p).2 := by
  cases call with
  | polynomial q =>
      cases h
      rfl
  | createRoot q I mark =>
      cases h
      rfl
  | createRootBetween q l u mark =>
      simp only [requested?, Option.ite_none_right_eq_some, Option.some.injEq] at h
      obtain ⟨hle, rfl⟩ := h
      rw [apply, createRootBetween_snd, if_pos hle]
  | _ => cases h

/-- Requests are not among the calls that are counted otherwise. -/
theorem counts_nothing_of_requested (h : call.requested? = some p) (ctx : Context) :
    call.growth ctx = 0 ∧ call.asksSign = false ∧ call.asksOrder = false
      ∧ call.asksMembership = false := by
  cases call with
  | polynomial q => exact ⟨rfl, rfl, rfl, rfl⟩
  | createRoot q I mark => exact ⟨rfl, rfl, rfl, rfl⟩
  | createRootBetween q l u mark => exact ⟨rfl, rfl, rfl, rfl⟩
  | _ => cases h

/-- Crossed bounds leave the context as it is. -/
theorem apply_createRootBetween_of_crossed {l u : Rat} {mark : Bool}
    (h : (createRootBetween p l u mark).requested? = none) (ctx : Context) :
    (createRootBetween p l u mark).apply ctx = ctx := by
  have hlt : ¬ l ≤ u := by simpa [requested?] using h
  rw [apply, createRootBetween_snd, if_neg hlt]

theorem interned_of_not_requested (h : call.requested? = none) (ctx : Context) :
    (call.apply ctx).interned = ctx.interned := by
  cases call with
  | polynomial q => cases h
  | createRoot q I mark => cases h
  | createRootBetween q l u mark => rw [apply_createRootBetween_of_crossed h]
  | _ => rfl

end Call

/-! ## Counts between two resets -/

/-- The counts have grown by what the calls say. -/
structure Accounted (ctx : Context) (calls : List Call) : Prop where
  refinements : ((ctx.run calls).stats.refinements : Int)
    = ctx.stats.refinements + ctx.growth calls
  signEvaluations : (ctx.run calls).stats.signEvaluations
    = ctx.stats.signEvaluations + calls.countP Call.asksSign
  comparisons : (ctx.run calls).stats.comparisons
    = ctx.stats.comparisons + calls.countP Call.asksOrder
  containmentChecks : (ctx.run calls).stats.containmentChecks
    = ctx.stats.containmentChecks + calls.countP Call.asksMembership
  /-- Each request is a hit or makes a polynomial known. -/
  requests : (ctx.run calls).stats.cacheHits + (ctx.run calls).interned.length
    = ctx.stats.cacheHits + ctx.interned.length + (calls.filterMap Call.requested?).length

theorem Accounted.append {ctx : Context} {calls more : List Call} (h : ctx.Accounted calls)
    (hmore : (ctx.run calls).Accounted more) : ctx.Accounted (calls ++ more) := by
  refine ⟨?_, ?_, ?_, ?_, ?_⟩
  · rw [run_append, hmore.refinements, h.refinements, growth_append, add_assoc]
  · rw [run_append, hmore.signEvaluations, h.signEvaluations, List.countP_append, add_assoc]
  · rw [run_append, hmore.comparisons, h.comparisons, List.countP_append, add_assoc]
  · rw [run_append, hmore.containmentChecks, h.containmentChecks, List.countP_append, add_assoc]
  · rw [run_append, hmore.requests, h.requests, List.filterMap_append, List.length_append,
      add_assoc]

theorem Call.accounted_of_requested {call : Call} {p : Poly} (h : call.requested? = some p)
    (ctx : Context) : ctx.Accounted [call] := by
  have hrun : ctx.run [call] = (ctx.intern p).2 := call.apply_of_requested h ctx
  obtain ⟨hgrowth, hsign, horder, hmember⟩ := call.counts_nothing_of_requested h ctx
  have hzero : ctx.growth [call] = 0 := by simp only [Context.growth, hgrowth, add_zero]
  obtain ⟨hits, interned, hintern, hsum⟩ := ctx.intern_adds p
  rw [hintern] at hrun
  refine ⟨?_, ?_, ?_, ?_, ?_⟩
  · rw [hrun, hzero, add_zero]
  · simp [hrun, hsign]
  · simp [hrun, horder]
  · simp [hrun, hmember]
  · simp only [hrun, hsum, List.filterMap_cons, h, List.filterMap_nil, List.length_singleton]

/-- The bisections that a context is charged for are those that the numbers count. -/
theorem refinements_charge (ctx : Context) {σ α : Type} {count : σ → Nat} {cap : Nat} {s : σ}
    {o : Outcome σ α} (h : o.KeepsTo count cap s) :
    ((ctx.charge o).2.stats.refinements : Int)
      = ctx.stats.refinements + (o.growth count s + 0) := by
  rw [h.growth_eq, add_zero]
  exact Nat.cast_add _ _

theorem Call.accounted_of_not_requested {call : Call} (h : call.requested? = none)
    (hreset : call.isReset = false) (ctx : Context) : ctx.Accounted [call] := by
  cases call with
  | withEvaluator ev => exact ⟨(add_zero _).symm, rfl, rfl, rfl, rfl⟩
  | polynomial p => cases h
  | createRoot p I mark => cases h
  | createRootBetween p l u mark =>
      have hrun : ctx.run [.createRootBetween p l u mark] = ctx :=
        apply_createRootBetween_of_crossed h ctx
      refine ⟨?_, ?_, ?_, ?_, ?_⟩
      · rw [hrun]
        exact (add_zero _).symm
      · rw [hrun]
        rfl
      · rw [hrun]
        rfl
      · rw [hrun]
        rfl
      · rw [hrun, List.filterMap_cons, h]
        rfl
  | rational v mark => exact ⟨(add_zero _).symm, rfl, rfl, rfl, rfl⟩
  | sign a => exact ⟨(add_zero _).symm, rfl, rfl, rfl, rfl⟩
  | signOf a q =>
      have hq := a.signOf_keepsTo ctx.limits ctx.evaluator q
      exact ⟨refinements_charge _ hq, rfl, rfl, rfl, rfl⟩
  | compare a b =>
      have hab := a.compare_keepsTo b ctx.limits
      exact ⟨refinements_charge _ hab, rfl, rfl, rfl, rfl⟩
  | containedIn a query =>
      have ha := a.containedIn_keepsTo ctx.limits query
      exact ⟨refinements_charge _ ha, rfl, rfl, rfl, rfl⟩
  | branchingPoint a =>
      have ha := a.branchingPoint_keepsTo ctx.limits
      exact ⟨refinements_charge _ ha, rfl, rfl, rfl, rfl⟩
  | refineToPrecision a =>
      have ha := a.refineToPrecision_keepsTo ctx.limits
      exact ⟨refinements_charge _ ha, rfl, rfl, rfl, rfl⟩
  | resetStats => cases hreset

theorem Call.accounted {call : Call} (hreset : call.isReset = false) (ctx : Context) :
    ctx.Accounted [call] := by
  cases h : call.requested? with
  | none => exact accounted_of_not_requested h hreset ctx
  | some p => exact accounted_of_requested h ctx

theorem run_accounted (ctx : Context) {calls : List Call}
    (h : ∀ call ∈ calls, call.isReset = false) : ctx.Accounted calls := by
  induction calls generalizing ctx with
  | nil => exact ⟨(add_zero _).symm, rfl, rfl, rfl, rfl⟩
  | cons call calls ih =>
      have hcall := Call.accounted (h call List.mem_cons_self) ctx
      exact hcall.append (ih _ fun c hc => h c (List.mem_cons_of_mem call hc))

/-! ## The known polynomials -/

/-- A context knows exactly the given polynomials, and each of them once. -/
structure Knows (ctx : Context) (polys : List Poly) : Prop where
  nodup : ctx.known.Nodup
  mem_iff : ∀ p, p ∈ ctx.known ↔ p ∈ polys

theorem Knows.length_interned {ctx : Context} {polys : List Poly} (h : ctx.Knows polys) :
    ctx.interned.length = polys.toFinset.card := by
  have hset : ctx.known.toFinset = polys.toFinset := by
    ext p
    rw [List.mem_toFinset, List.mem_toFinset, h.mem_iff]
  rw [← hset, List.toFinset_card_of_nodup h.nodup, known, List.length_map]

theorem Knows.intern {ctx : Context} {polys : List Poly} (h : ctx.Knows polys) (p : Poly) :
    (ctx.intern p).2.Knows (polys ++ [p]) := by
  rcases ctx.intern_cases p with ⟨hp, hintern⟩ | ⟨hp, hintern⟩
  · rw [hintern]
    refine ⟨h.nodup, fun q => ?_⟩
    show q ∈ ctx.known ↔ q ∈ polys ++ [p]
    rw [h.mem_iff, List.mem_append, List.mem_singleton]
    refine ⟨.inl, ?_⟩
    rintro (hq | rfl)
    · exact hq
    · exact (h.mem_iff q).mp hp
  · rw [hintern]
    refine ⟨List.nodup_cons.mpr ⟨hp, h.nodup⟩, fun q => ?_⟩
    show q ∈ p :: ctx.known ↔ q ∈ polys ++ [p]
    rw [List.mem_cons, h.mem_iff, List.mem_append, List.mem_singleton, or_comm]

/-- A call makes its polynomial known, if it requests one; a reset forgets none. -/
theorem Knows.apply {ctx : Context} {polys : List Poly} (h : ctx.Knows polys) (call : Call) :
    (call.apply ctx).Knows (polys ++ call.requested?.toList) := by
  cases hreq : call.requested? with
  | none =>
      have hknown : (call.apply ctx).known = ctx.known := by
        rw [known, Call.interned_of_not_requested hreq, known]
      rw [Option.toList_none, List.append_nil]
      refine ⟨?_, ?_⟩
      · rw [hknown]
        exact h.nodup
      · rw [hknown]
        exact h.mem_iff
  | some p =>
      rw [Call.apply_of_requested hreq]
      exact h.intern p

theorem Knows.run {ctx : Context} {polys : List Poly} (h : ctx.Knows polys) (calls : List Call) :
    (ctx.run calls).Knows (polys ++ calls.filterMap Call.requested?) := by
  induction calls generalizing ctx polys with
  | nil =>
      rw [List.filterMap_nil, List.append_nil]
      exact h
  | cons call calls ih =>
      have hnext := ih (h.apply call)
      rw [List.append_assoc] at hnext
      rw [List.filterMap_cons]
      cases hreq : call.requested? with
      | none =>
          rw [hreq] at hnext
          exact hnext
      | some p =>
          rw [hreq] at hnext
          exact hnext

/-! ## Whole runs -/

/-- The calls up to the last reset, if there was one. -/
def upToReset (calls : List Call) : List Call :=
  calls.rdropWhile fun call => !call.isReset

/-- The calls since the last reset, or all of them. -/
def sinceReset (calls : List Call) : List Call :=
  calls.rtakeWhile fun call => !call.isReset

/-- The counts start at `0` after a reset, as they do in a new context. -/
theorem stats_run_upToReset {ctx : Context} (h : ctx.stats = {}) (calls : List Call) :
    (ctx.run (upToReset calls)).stats = {} := by
  by_cases hnil : upToReset calls = []
  · rw [hnil]
    exact h
  · have hlast : ¬ (!((upToReset calls).getLast hnil).isReset) = true :=
      List.rdropWhile_last_not _ _ hnil
    have hsplit := List.dropLast_append_getLast hnil
    generalize (upToReset calls).getLast hnil = last at hlast hsplit
    rw [← hsplit, run_append]
    cases last with
    | resetStats => rfl
    | _ => exact absurd rfl hlast

/-- **The counts of a context are the calls made.** In a new context, with any limits and
evaluator, let any calls be made about any numbers, with or without success. Then the
bisections counted are those by which the counters of the numbers have grown in calls
since the last reset; signs, comparisons and checks of membership are counted as often as
they have been asked for since then. The polynomials interned are the different ones ever
requested, also for roots that there turned out not to be, and the hits are the requests
since the last reset that did not add to them. -/
theorem counts_account_for_calls (limits : Limits) (ev : Evaluator) (calls : List Call) :
    let start : Context := { limits := limits, evaluator := ev }
    let reset := start.run (upToReset calls)
    let now := start.run calls
    (now.stats.refinements : Int) = reset.growth (sinceReset calls)
      ∧ now.stats.signEvaluations = (sinceReset calls).countP Call.asksSign
      ∧ now.stats.comparisons = (sinceReset calls).countP Call.asksOrder
      ∧ now.stats.containmentChecks = (sinceReset calls).countP Call.asksMembership
      ∧ now.interned.length = (calls.filterMap Call.requested?).toFinset.card
      ∧ (now.stats.cacheHits : Int)
        = ((sinceReset calls).filterMap Call.requested?).length
          - ((now.interned.length : Int) - reset.interned.length) := by
  intro start reset now
  have hsplit : upToReset calls ++ sinceReset calls = calls :=
    List.rdropWhile_append_rtakeWhile
  have hnow : now = reset.run (sinceReset calls) := by
    rw [← run_append, hsplit]
  have hzero : reset.stats = {} := stats_run_upToReset rfl calls
  -- what is counted now has been counted since the reset, what is known from the start on
  have hcount : reset.Accounted (sinceReset calls) := by
    refine run_accounted reset fun call hcall => ?_
    simpa using List.mem_rtakeWhile_imp hcall
  have hstart : start.Knows [] := ⟨List.nodup_nil, fun p => Iff.rfl⟩
  have hknows : now.Knows (calls.filterMap Call.requested?) := hstart.run calls
  obtain ⟨hsteps, hsigns, horders, hchecks, hrequests⟩ := hcount
  simp only [hzero, ← hnow, Nat.cast_zero, zero_add] at hsteps hsigns horders hchecks hrequests
  refine ⟨hsteps, hsigns, horders, hchecks, hknows.length_interned, ?_⟩
  omega

end Context

end AlgebraicReals
