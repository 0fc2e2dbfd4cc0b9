import Mathlib
import AlgebraicReals.Proofs.Interval.Image
import AlgebraicReals.Proofs.Interval.Quotient
import AlgebraicReals.Proofs.Interval.Stored

set_option autoImplicit false

/-! # Programs on intervals

The bounds of an interval are checked only where it is made from two endpoints; the
operations build their answers without a check. Here is why none is needed. Bounds cannot
cross around a member (`Interval.wellFormed_of_mem`), and an operation on intervals with
members has an answer with members; on other operands it answers `(0, 0)`, or one of the
operands as it stands.

A program is a sequence of steps that make intervals or work on intervals made before,
each of which appends its results; a step that fails appends nothing. No interval that a
program produces has crossed bounds (`Interval.run_wellFormed`). -/

namespace AlgebraicReals

namespace Interval

/-! ## Operations keep the bounds in order -/

theorem wellFormed_of_mem {I : Interval} {x : ℝ} (hx : x ∈ I.toSet) : I.WellFormed := by
  obtain ⟨l, u⟩ := I
  rcases l with _ | ⟨l, a⟩
  · trivial
  rcases u with _ | ⟨u, b⟩
  · trivial
  · exact Rat.cast_le.mp ((Endpoint.le_of_mem_above hx.1).trans (Endpoint.le_of_mem_below hx.2))

theorem wellFormed_of_isEmpty_eq_false {I : Interval} (h : I.isEmpty = false) : I.WellFormed := by
  obtain ⟨x, hx⟩ := nonempty_toSet h
  exact wellFormed_of_mem hx

theorem wellFormed_point (x : Rat) : (point x).WellFormed :=
  le_refl x

theorem wellFormed_empty : empty.WellFormed :=
  le_refl 0

/-- The constructor accepts the bounds of an interval exactly if they do not cross. -/
theorem ofEndpoints_eq_ok_iff (I : Interval) :
    ofEndpoints I.lower I.upper = .ok I ↔ I.WellFormed := by
  obtain ⟨l, u⟩ := I
  rcases l with _ | ⟨l, a⟩
  · exact iff_of_true rfl trivial
  rcases u with _ | ⟨u, b⟩
  · exact iff_of_true rfl trivial
  show (if u < l then _ else _) = _ ↔ l ≤ u
  by_cases h : u < l
  · simp [h]
  · simp [h, not_lt.mp h]

theorem wellFormed_of_ofEndpoints {l u : Endpoint} {I : Interval} (h : ofEndpoints l u = .ok I) :
    I.WellFormed := by
  have hI : I = ⟨l, u⟩ := by
    rw [ofEndpoints.eq_def] at h
    split at h
    · split at h
      · cases h
      · exact (Except.ok.inj h).symm
    · exact (Except.ok.inj h).symm
  subst hI
  exact (ofEndpoints_eq_ok_iff _).mp h

theorem wellFormed_neg {I : Interval} (h : I.WellFormed) : I.neg.WellFormed := by
  obtain ⟨l, u⟩ := I
  rcases l with _ | ⟨l, a⟩
  · rcases u with _ | ⟨u, b⟩ <;> trivial
  rcases u with _ | ⟨u, b⟩
  · trivial
  · exact neg_le_neg (a := l) (b := u) h

theorem wellFormed_add (I J : Interval) : (I.add J).WellFormed := by
  cases hI : I.isEmpty with
  | true =>
      rw [add, hI]
      exact wellFormed_empty
  | false =>
      cases hJ : J.isEmpty with
      | true =>
          rw [add, hJ, Bool.or_true]
          exact wellFormed_empty
      | false =>
          obtain ⟨x, hx⟩ := nonempty_toSet hI
          obtain ⟨y, hy⟩ := nonempty_toSet hJ
          exact wellFormed_of_mem (add_mem hx hy)

theorem wellFormed_mul (I J : Interval) : (I.mul J).WellFormed := by
  cases h : (I.mul J).isEmpty with
  | true =>
      rw [mul_eq_empty h]
      exact wellFormed_empty
  | false => exact wellFormed_of_isEmpty_eq_false h

theorem wellFormed_pow (I : Interval) (n : Nat) : (I.pow n).WellFormed := by
  cases hI : I.isEmpty with
  | true =>
      rw [pow, hI]
      exact wellFormed_empty
  | false =>
      obtain ⟨x, hx⟩ := nonempty_toSet hI
      exact wellFormed_of_mem (pow_mem hx n)

theorem wellFormed_abs (I : Interval) : I.abs.WellFormed := by
  cases hI : I.isEmpty with
  | true =>
      rw [abs, hI]
      exact wellFormed_empty
  | false =>
      obtain ⟨x, hx⟩ := nonempty_toSet hI
      apply wellFormed_of_mem (x := |x|)
      rw [toSet_abs]
      exact Set.mem_image_of_mem _ hx

theorem wellFormed_inter (I J : Interval) : (I.inter J).WellFormed := by
  rw [inter]
  split
  · exact wellFormed_empty
  · rename_i h
    simp only [Bool.or_eq_true, not_or, Bool.not_eq_true] at h
    exact wellFormed_of_isEmpty_eq_false h.2

theorem wellFormed_hull (I : Interval) {J : Interval} (hJ : J.WellFormed) :
    (I.hull J).WellFormed := by
  cases hempty : I.isEmpty with
  | true =>
      rw [hull, hempty]
      exact hJ
  | false =>
      obtain ⟨x, hx⟩ := nonempty_toSet hempty
      exact wellFormed_of_mem (subset_hull_left I J hx)

end Interval

/-- The bounds of no part cross. -/
def Parts.WellFormed : Parts → Prop
  | one part => part.WellFormed
  | two first second => first.WellFormed ∧ second.WellFormed

theorem Parts.WellFormed.toPair {p : Parts} (h : p.WellFormed) :
    p.toPair.1.WellFormed ∧ p.toPair.2.WellFormed := by
  cases p with
  | one part => exact ⟨h, Interval.wellFormed_empty⟩
  | two first second => exact h

namespace Interval

theorem wellFormed_lower_infinite (e : Endpoint) : (⟨.infinite, e⟩ : Interval).WellFormed :=
  trivial

theorem wellFormed_upper_infinite (e : Endpoint) : (⟨e, .infinite⟩ : Interval).WellFormed := by
  cases e <;> trivial

theorem wellFormed_reciprocal {I : Interval} (h0 : (0 : ℝ) ∉ I.toSet) :
    I.reciprocal.WellFormed := by
  cases hempty : I.isEmpty with
  | true =>
      rw [reciprocal, hempty]
      exact wellFormed_empty
  | false =>
      obtain ⟨y, hy⟩ := nonempty_toSet hempty
      apply wellFormed_of_mem (x := y⁻¹)
      rw [toSet_reciprocal h0, Set.mem_inv, inv_inv]
      exact hy

theorem wellFormed_inverse (I : Interval) : I.inverse.WellFormed := by
  unfold inverse
  split
  · exact wellFormed_empty
  split
  · rename_i hzero
    apply wellFormed_reciprocal
    simpa [Bool.eq_false_iff, contains_iff] using hzero
  · cases I.hasNegative <;> cases I.hasPositive
    · exact wellFormed_empty
    · exact wellFormed_upper_infinite _
    · exact wellFormed_lower_infinite I.lower.reciprocal
    · exact ⟨wellFormed_lower_infinite _, wellFormed_upper_infinite _⟩

theorem wellFormed_divParts (I J : Interval) : (I.divParts J).WellFormed := by
  unfold divParts
  cases J.inverse with
  | one inv => exact wellFormed_mul I inv
  | two lo hi =>
      have ha := wellFormed_mul I lo
      have hb := wellFormed_mul I hi
      dsimp only
      split
      · exact hb
      split
      · exact ha
      split
      · exact ⟨ha, hb⟩
      · exact wellFormed_hull _ hb

theorem wellFormed_div {I J Q : Interval} (h : I.div J = .ok Q) : Q.WellFormed := by
  unfold div at h
  split at h
  · cases h
  · cases h
    exact wellFormed_mul I J.reciprocal

/-! ## Programs -/

/-- The ways to make an interval from numbers. -/
inductive Source where
  /-- From kinds and numbers; the number of an infinite bound is not kept. -/
  | bounds (lowerKind : BoundKind) (lower upper : Rat) (upperKind : BoundKind)
  | opened (lower upper : Rat)
  | closed (lower upper : Rat)
  | point (x : Rat)
  | empty
  | line

/-- The interval that is made, if its bounds do not cross. -/
def Source.make : Source → Except IntervalError Interval
  | bounds k l u m => ofEndpoints (.ofKind k l) (.ofKind m u)
  | opened l u => ofEndpoints (.finite l false) (.finite u false)
  | closed l u => ofEndpoints (.finite l true) (.finite u true)
  | point x => .ok (Interval.point x)
  | empty => .ok Interval.empty
  | line => .ok Interval.line

/-- The operations on one interval. -/
inductive Unary where
  | neg
  | abs
  | pow (n : Nat)
  /-- The interval that holds the midpoint only. -/
  | midpoint
  | inverse

/-- The operations on two intervals. -/
inductive Binary where
  | add
  | sub
  | mul
  | div
  | divParts
  | inter
  | hull

/-- The results of an operation on one interval. -/
def Unary.apply (I : Interval) : Unary → List Interval
  | neg => [I.neg]
  | abs => [I.abs]
  | pow n => [I.pow n]
  | midpoint => [Interval.point I.midpoint]
  | inverse => [I.inverse.toPair.1, I.inverse.toPair.2]

/-- The results of an operation on two intervals; a division that fails has none. -/
def Binary.apply (I J : Interval) : Binary → List Interval
  | add => [I.add J]
  | sub => [I.sub J]
  | mul => [I.mul J]
  | div => (I.div J).toOption.toList
  | divParts => [(I.divParts J).toPair.1, (I.divParts J).toPair.2]
  | inter => [I.inter J]
  | hull => [I.hull J]

/-- A step of a program. Operands are given by their places among the intervals so far. -/
inductive Step where
  | make (source : Source)
  | unary (op : Unary) (i : Nat)
  | binary (op : Binary) (i j : Nat)

/-- The intervals that a step adds to those made before; none if it fails. -/
def Step.results (made : List Interval) : Step → List Interval
  | make source => source.make.toOption.toList
  | unary op i =>
    match made[i]? with
    | some I => op.apply I
    | none => []
  | binary op i j =>
    match made[i]?, made[j]? with
    | some I, some J => op.apply I J
    | _, _ => []

/-- All intervals after a program, those made before it first. -/
def run (made : List Interval) : List Step → List Interval
  | [] => made
  | step :: rest => run (made ++ step.results made) rest

/-! ## One step -/

theorem eq_ok_of_mem_results {α : Type} {r : Except IntervalError α} {x : α}
    (hx : x ∈ r.toOption.toList) : r = .ok x := by
  cases r with
  | error e => cases hx
  | ok y =>
      rw [List.mem_singleton.mp hx]

theorem Source.make_wellFormed {source : Source} {I : Interval} (h : source.make = .ok I) :
    I.WellFormed := by
  cases source with
  | bounds k l u m => exact wellFormed_of_ofEndpoints h
  | opened l u =>
      unfold make at h
      exact wellFormed_of_ofEndpoints h
  | closed l u =>
      unfold make at h
      exact wellFormed_of_ofEndpoints h
  | point x =>
      cases h
      exact wellFormed_point x
  | empty =>
      cases h
      exact wellFormed_empty
  | line =>
      cases h
      exact wellFormed_lower_infinite _

theorem Unary.apply_wellFormed {I : Interval} (hI : I.WellFormed) (op : Unary) :
    ∀ K ∈ op.apply I, K.WellFormed := by
  cases op with
  | neg => simpa [apply] using wellFormed_neg hI
  | abs => simpa [apply] using wellFormed_abs I
  | pow n => simpa [apply] using wellFormed_pow I n
  | midpoint => simpa [apply] using wellFormed_point I.midpoint
  | inverse => simpa [apply] using I.wellFormed_inverse.toPair

theorem Binary.apply_wellFormed {I J : Interval} (hJ : J.WellFormed) (op : Binary) :
    ∀ K ∈ op.apply I J, K.WellFormed := by
  cases op with
  | add => simpa [apply] using wellFormed_add I J
  | sub => simpa [apply, Interval.sub] using wellFormed_add I J.neg
  | mul => simpa [apply] using wellFormed_mul I J
  | div =>
      intro K hK
      exact wellFormed_div (eq_ok_of_mem_results hK)
  | divParts => simpa [apply] using (I.wellFormed_divParts J).toPair
  | inter => simpa [apply] using wellFormed_inter I J
  | hull => simpa [apply] using wellFormed_hull I hJ

theorem Step.results_wellFormed {made : List Interval} (hmade : ∀ I ∈ made, I.WellFormed)
    (step : Step) : ∀ K ∈ step.results made, K.WellFormed := by
  intro K hK
  cases step with
  | make source => exact source.make_wellFormed (eq_ok_of_mem_results hK)
  | unary op i =>
      simp only [results] at hK
      split at hK
      · rename_i I hI
        exact op.apply_wellFormed (hmade I (List.mem_of_getElem? hI)) K hK
      · cases hK
  | binary op i j =>
      simp only [results] at hK
      split at hK
      · rename_i I J hI hJ
        exact op.apply_wellFormed (hmade J (List.mem_of_getElem? hJ)) K hK
      · cases hK

/-! ## Whole programs -/

theorem run_wellFormed {made : List Interval} (hmade : ∀ I ∈ made, I.WellFormed)
    (program : List Step) : ∀ I ∈ run made program, I.WellFormed := by
  induction program generalizing made with
  | nil => exact hmade
  | cons step rest ih =>
      apply ih
      intro I hI
      rcases List.mem_append.mp hI with hI | hI
      · exact hmade I hI
      · exact step.results_wellFormed hmade I hI

end Interval

/-! ## Programs on stored intervals

The same programs, on the four fields. What they make is what they make of intervals
(`Stored.map_toInterval_run`), where the bounds do not cross; and infinite sides hold `0`, as
no step brings another number there (`Stored.tidy_run`). -/

namespace Stored

open AlgebraicReals.Interval (Source Unary Binary Step)

/-- The stored interval that is made from numbers, if they do not cross. -/
def make : Source → Except IntervalError Stored
  | .bounds k l u m => new l k u m
  | .opened l u => new l .excluded u .excluded
  | .closed l u => new l .included u .included
  | .point x => .ok (point x)
  | .empty => .ok empty
  | .line => .ok line

/-- The results of an operation on one stored interval. -/
def unary (S : Stored) : Unary → List Stored
  | .neg => [S.neg]
  | .abs => [S.abs]
  | .pow n => [S.pow n]
  | .midpoint => [point S.midpoint]
  | .inverse => [S.inverse.toPair.1, S.inverse.toPair.2]

/-- The results of an operation on two stored intervals. -/
def binary (S T : Stored) : Binary → List Stored
  | .add => [S.add T]
  | .sub => [S.sub T]
  | .mul => [S.mul T]
  | .div => (S.div T).toOption.toList
  | .divParts => [(S.divParts T).toPair.1, (S.divParts T).toPair.2]
  | .inter => [S.inter T]
  | .hull => [S.hull T]

/-- The stored intervals that a step adds to those made before. -/
def results (made : List Stored) : Step → List Stored
  | .make source => (make source).toOption.toList
  | .unary op i =>
    match made[i]? with
    | some S => S.unary op
    | none => []
  | .binary op i j =>
    match made[i]?, made[j]? with
    | some S, some T => S.binary T op
    | _, _ => []

/-- All stored intervals after a program, those made before it first. -/
def run (made : List Stored) : List Step → List Stored
  | [] => made
  | step :: rest => run (made ++ results made step) rest

/-! ### One step -/

theorem map_toList_toOption (r : Except IntervalError Stored) :
    r.toOption.toList.map toInterval = (r.map toInterval).toOption.toList := by
  cases r <;> rfl

theorem map_toInterval_make (source : Source) :
    (make source).map toInterval = source.make := by
  cases source with
  | bounds k l u m => exact map_toInterval_new l k u m
  | opened l u => exact map_toInterval_new l .excluded u .excluded
  | closed l u => exact map_toInterval_new l .included u .included
  | point x => rfl
  | empty => rfl
  | line => rfl

theorem Parts.map_toInterval (p : Parts) :
    [p.toPair.1, p.toPair.2].map toInterval = [p.toParts.toPair.1, p.toParts.toPair.2] := by
  cases p <;> rfl

theorem map_toInterval_unary (S : Stored) (op : Unary) :
    (S.unary op).map toInterval = op.apply S.toInterval := by
  cases op with
  | neg => exact congrArg (fun I => [I]) (toInterval_neg S)
  | abs => exact congrArg (fun I => [I]) (toInterval_abs S)
  | pow n => exact congrArg (fun I => [I]) (toInterval_pow S n)
  | midpoint => exact congrArg (fun x => [Interval.point x]) (midpoint_eq S)
  | inverse =>
      rw [unary, Parts.map_toInterval, toParts_inverse]
      rfl

theorem map_toInterval_binary (S T : Stored) (op : Binary) :
    (S.binary T op).map toInterval = op.apply S.toInterval T.toInterval := by
  cases op with
  | add => exact congrArg (fun I => [I]) (toInterval_add S T)
  | sub => exact congrArg (fun I => [I]) (toInterval_sub S T)
  | mul => exact congrArg (fun I => [I]) (toInterval_mul S T)
  | div =>
      rw [binary, map_toList_toOption, map_toInterval_div]
      rfl
  | divParts =>
      rw [binary, Parts.map_toInterval, toParts_divParts]
      rfl
  | inter => exact congrArg (fun I => [I]) (toInterval_inter S T)
  | hull => exact congrArg (fun I => [I]) (toInterval_hull S T)

theorem map_toInterval_results (made : List Stored) (step : Step) :
    (results made step).map toInterval = step.results (made.map toInterval) := by
  cases step with
  | make source =>
      rw [results, map_toList_toOption, map_toInterval_make]
      rfl
  | unary op i =>
      simp only [results, Step.results, List.getElem?_map]
      cases made[i]? with
      | none => rfl
      | some S => exact map_toInterval_unary S op
  | binary op i j =>
      simp only [results, Step.results, List.getElem?_map]
      cases made[i]? with
      | none => rfl
      | some S =>
          cases made[j]? with
          | none => rfl
          | some T => exact map_toInterval_binary S T op

theorem tidy_make {source : Source} {S : Stored} (h : make source = .ok S) : S.Tidy := by
  cases source with
  | bounds k l u m => exact tidy_of_new h
  | opened l u => exact tidy_of_new h
  | closed l u => exact tidy_of_new h
  | point x =>
      cases h
      exact tidy_fromParts _ _ _ _
  | empty =>
      cases h
      exact tidy_empty
  | line =>
      cases h
      exact tidy_fromParts _ _ _ _

theorem tidy_unary {S : Stored} (hS : S.Tidy) (op : Unary) : ∀ Q ∈ S.unary op, Q.Tidy := by
  cases op with
  | neg => exact List.forall_mem_singleton.mpr (tidy_neg S)
  | abs => exact List.forall_mem_singleton.mpr hS.abs
  | pow n => exact List.forall_mem_singleton.mpr (tidy_pow S n)
  | midpoint => exact List.forall_mem_singleton.mpr (tidy_fromParts _ _ _ _)
  | inverse => simpa [unary, Parts.Tidy] using tidy_inverse S

theorem tidy_binary {S T : Stored} (hS : S.Tidy) (hT : T.Tidy) (op : Binary) :
    ∀ Q ∈ S.binary T op, Q.Tidy := by
  cases op with
  | add => exact List.forall_mem_singleton.mpr (tidy_add S T)
  | sub => exact List.forall_mem_singleton.mpr (tidy_add S T.neg)
  | mul => exact List.forall_mem_singleton.mpr (tidy_mul S T)
  | div =>
      intro Q hQ
      exact tidy_div S T (Interval.eq_ok_of_mem_results hQ)
  | divParts => simpa [binary, Parts.Tidy] using tidy_divParts S T
  | inter => exact List.forall_mem_singleton.mpr (tidy_inter S T)
  | hull => exact List.forall_mem_singleton.mpr (hS.hull hT)

theorem tidy_results {made : List Stored} (hmade : ∀ S ∈ made, S.Tidy) (step : Step) :
    ∀ Q ∈ results made step, Q.Tidy := by
  intro Q hQ
  cases step with
  | make source => exact tidy_make (Interval.eq_ok_of_mem_results hQ)
  | unary op i =>
      simp only [results] at hQ
      split at hQ
      · rename_i S hS
        exact tidy_unary (hmade S (List.mem_of_getElem? hS)) op Q hQ
      · cases hQ
  | binary op i j =>
      simp only [results] at hQ
      split at hQ
      · rename_i S T hS hT
        exact tidy_binary (hmade S (List.mem_of_getElem? hS)) (hmade T (List.mem_of_getElem? hT))
          op Q hQ
      · cases hQ

/-! ### Whole programs -/

theorem map_toInterval_run (made : List Stored) (program : List Step) :
    (run made program).map toInterval = Interval.run (made.map toInterval) program := by
  induction program generalizing made with
  | nil => rfl
  | cons step rest ih =>
      rw [run, ih, List.map_append, map_toInterval_results]
      rfl

theorem tidy_run {made : List Stored} (hmade : ∀ S ∈ made, S.Tidy) (program : List Step) :
    ∀ S ∈ run made program, S.Tidy := by
  induction program generalizing made with
  | nil => exact hmade
  | cons step rest ih =>
      apply ih
      intro S hS
      rcases List.mem_append.mp hS with hS | hS
      · exact hmade S hS
      · exact tidy_results hmade step S hS

theorem left_le_right {S : Stored} (h : S.toInterval.WellFormed) (hl : S.leftKind ≠ .infinite)
    (hr : S.rightKind ≠ .infinite) : S.left ≤ S.right := by
  obtain ⟨l, k, r, m⟩ := S
  cases k <;> cases m
  all_goals first | exact absurd rfl hl | exact absurd rfl hr | exact h

/-- The constructor accepts the four fields of a stored interval and stores them as they
were, if they are in order and infinite sides hold `0`. -/
theorem new_eq_ok {S : Stored} (h : S.Tidy)
    (hle : S.leftKind ≠ .infinite → S.rightKind ≠ .infinite → S.left ≤ S.right) :
    new S.left S.leftKind S.right S.rightKind = .ok S := by
  unfold new
  split
  · rename_i hcrossed
    simp only [Bool.and_eq_true, Bool.not_eq_true', decide_eq_true_eq] at hcrossed
    obtain ⟨⟨hl, hr⟩, hlt⟩ := hcrossed
    refine absurd (hle ?_ ?_) (not_le.mpr hlt)
    · intro hk
      rw [hk] at hl
      cases hl
    · intro hm
      rw [hm] at hr
      cases hr
  · rw [h.fromParts_eq]

/-- **No program breaks the form in which intervals are stored.** Whatever stored intervals
are made and whatever operations are applied to them and to their results, in each one that
arises an infinite side holds the number `0`, the left number is at most the right one if
both sides are finite, and so the constructor would accept the four fields and store the
same. Seen as intervals, they are those that the program produces on intervals. -/
theorem run_keeps_bounds_in_order (program : List Step) :
    (∀ S ∈ run [] program,
      (S.leftKind = .infinite → S.left = 0)
        ∧ (S.rightKind = .infinite → S.right = 0)
        ∧ (S.leftKind ≠ .infinite → S.rightKind ≠ .infinite → S.left ≤ S.right)
        ∧ new S.left S.leftKind S.right S.rightKind = .ok S)
      ∧ (run [] program).map toInterval = Interval.run [] program := by
  have hmeant : (run [] program).map toInterval = Interval.run [] program :=
    map_toInterval_run [] program
  refine ⟨fun S hS => ?_, hmeant⟩
  have htidy : S.Tidy := tidy_run (List.forall_mem_nil _) program S hS
  have hwf : S.toInterval.WellFormed := by
    refine Interval.run_wellFormed (List.forall_mem_nil _) program S.toInterval ?_
    rw [← hmeant]
    exact List.mem_map_of_mem hS
  exact ⟨htidy.left, htidy.right, left_le_right hwf, new_eq_ok htidy (left_le_right hwf)⟩

/-- From `(-∞, -2)`, which drops the number `7` of its infinite bound, to its square
`(4, ∞)`, for which the number `0` of that bound is computed with, and to the inverse
`(0, 1/4)` of the square. -/
theorem run_keeps_bounds_in_order_square :
    run [] [.make (.bounds .infinite 7 (-2) .excluded), .unary (.pow 2) 0, .unary .inverse 1]
        = [⟨0, .infinite, -2, .excluded⟩, ⟨4, .excluded, 0, .infinite⟩,
          ⟨0, .excluded, 1 / 4, .excluded⟩, ⟨0, .excluded, 0, .excluded⟩]
      ∧ new 4 .excluded 0 .infinite = .ok ⟨4, .excluded, 0, .infinite⟩ := by
  have hrun : run [] [.make (.bounds .infinite 7 (-2) .excluded), .unary (.pow 2) 0,
      .unary .inverse 1]
        = [⟨0, .infinite, -2, .excluded⟩, ⟨4, .excluded, 0, .infinite⟩,
          ⟨0, .excluded, 1 / 4, .excluded⟩, ⟨0, .excluded, 0, .excluded⟩] := by
    decide +kernel
  obtain ⟨hstored, -⟩ := run_keeps_bounds_in_order
    [.make (.bounds .infinite 7 (-2) .excluded), .unary (.pow 2) 0, .unary .inverse 1]
  rw [hrun] at hstored
  obtain ⟨-, -, -, hnew⟩ := hstored ⟨4, .excluded, 0, .infinite⟩ (by decide)
  exact ⟨hrun, hnew⟩

end Stored

end AlgebraicReals
