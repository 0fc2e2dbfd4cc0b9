import Mathlib
import AlgebraicReals.Rational

set_option autoImplicit false

/-! # The text of a rational number determines it

Texts are taken apart from the left: a run of characters of one kind ends where a character of
another kind stands (`Text.split_run`). Digits, the sign and the slash are the characters of
numbers, so that a number ends where anything else begins, and within a number the sign and
the slash cannot be taken for digits.

That nothing is lost in the text of a number is said by the reader: it reads back what has been
written (`Rational.ofChars?_chars`). -/

namespace AlgebraicReals

/-! ## Taking texts apart -/

namespace Text

/-- The text does not go on with a character of the given kind. -/
def StopsAt (kind : Char → Prop) (r : List Char) : Prop :=
  ∀ c ∈ r.head?, ¬kind c

theorem stopsAt_nil (kind : Char → Prop) : StopsAt kind [] := by
  intro c hc
  cases hc

theorem stopsAt_cons {kind : Char → Prop} {c : Char} {r : List Char} :
    StopsAt kind (c :: r) ↔ ¬kind c := by
  simp [StopsAt]

/-- **A run of characters ends in one place.** If two texts agree, and each is a run of
characters of one kind followed by something that does not go on with that kind, then the runs
agree and so do the rests. -/
theorem split_run {kind : Char → Prop} {a b r s : List Char}
    (ha : ∀ c ∈ a, kind c) (hb : ∀ c ∈ b, kind c) (hr : StopsAt kind r) (hs : StopsAt kind s)
    (h : a ++ r = b ++ s) : a = b ∧ r = s := by
  induction a generalizing b with
  | nil =>
      cases b with
      | nil => exact ⟨rfl, h⟩
      | cons c b =>
          -- the other text would go on where this one stops
          have hr' : r = c :: (b ++ s) := h
          rw [hr', stopsAt_cons] at hr
          exact absurd (hb c List.mem_cons_self) hr
  | cons c a ih =>
      cases b with
      | nil =>
          have hs' : s = c :: (a ++ r) := h.symm
          rw [hs', stopsAt_cons] at hs
          exact absurd (ha c List.mem_cons_self) hs
      | cons d b =>
          obtain ⟨hcd, htail⟩ := List.cons.inj h
          obtain ⟨hab, hrs⟩ := ih (fun x hx => ha x (List.mem_cons_of_mem c hx))
            (fun x hx => hb x (List.mem_cons_of_mem d hx)) htail
          exact ⟨by rw [hcd, hab], hrs⟩

/-- The place where a character stands for the last time is determined as well. -/
theorem split_last {c : Char} {a b r s : List Char} (hr : c ∉ r) (hs : c ∉ s)
    (h : a ++ c :: r = b ++ c :: s) : a = b ∧ r = s := by
  -- read backwards, the rests are runs of characters other than `c`
  have hrun : ∀ x ∈ r.reverse, x ≠ c := fun x hx hxc => hr (hxc ▸ List.mem_reverse.mp hx)
  have hrun' : ∀ x ∈ s.reverse, x ≠ c := fun x hx hxc => hs (hxc ▸ List.mem_reverse.mp hx)
  have hstop : ∀ t : List Char, StopsAt (· ≠ c) (c :: t) := fun t =>
    stopsAt_cons.mpr (not_not.mpr rfl)
  have hrev : r.reverse ++ c :: a.reverse = s.reverse ++ c :: b.reverse := by
    simpa using congrArg List.reverse h
  obtain ⟨hrs, hab⟩ := split_run hrun hrun' (hstop _) (hstop _) hrev
  exact ⟨List.reverse_injective (List.cons.inj hab).2, List.reverse_injective hrs⟩

end Text

namespace Rational

/-! ## Digits -/

theorem isDigit_of_mem_digits {n : Nat} {c : Char} (hc : c ∈ digits n) : c.isDigit = true :=
  Nat.isDigit_of_mem_toDigits (by omega) (by omega) hc

theorem digits_ne_nil (n : Nat) : digits n ≠ [] :=
  Nat.toDigits_ne_nil

theorem digitsValue_eq_ofDigitChars (n : Nat) (cs : List Char) :
    digitsValue n cs = Nat.ofDigitChars 10 cs n := by
  induction cs generalizing n with
  | nil => rfl
  | cons c cs ih => exact (ih _).trans Nat.ofDigitChars_cons.symm

theorem natural?_digits (n : Nat) : natural? (digits n) = some n := by
  have hall : (digits n).all Char.isDigit = true :=
    List.all_eq_true.mpr fun c hc => isDigit_of_mem_digits hc
  have hne : (digits n).isEmpty = false := List.isEmpty_eq_false_iff.mpr (digits_ne_nil n)
  rw [natural?, hall, hne, digitsValue_eq_ofDigitChars, digits]
  simp

theorem digits_injective : Function.Injective digits := by
  intro m n h
  have hread := congrArg natural? h
  rwa [natural?_digits, natural?_digits, Option.some_inj] at hread

theorem digits_append_inj {m n : Nat} {r s : List Char}
    (hr : Text.StopsAt (Char.isDigit · = true) r) (hs : Text.StopsAt (Char.isDigit · = true) s)
    (h : digits m ++ r = digits n ++ s) : m = n ∧ r = s := by
  obtain ⟨hmn, hrs⟩ := Text.split_run (fun _ => isDigit_of_mem_digits)
    (fun _ => isDigit_of_mem_digits) hr hs h
  exact ⟨digits_injective hmn, hrs⟩

theorem notMem_digits {c : Char} (hc : c.isDigit = false) (n : Nat) : c ∉ digits n := by
  intro hmem
  rw [isDigit_of_mem_digits hmem] at hc
  cases hc

/-! ## Integers and fractions -/

theorem integer?_digits (n : Nat) : integer? (digits n) = some (n : Int) := by
  have hsign : ∀ cs, digits n ≠ '-' :: cs := by
    intro cs h
    exact notMem_digits (by decide) n (h ▸ List.mem_cons_self)
  rw [integer?.eq_2 _ hsign, natural?_digits]
  rfl

theorem integer?_integerChars (n : Int) : integer? (integerChars n) = some n := by
  rw [integerChars]
  split
  · rename_i hneg
    simp only [integer?, natural?_digits, Option.map_some, Option.bind_eq_bind, Option.bind_some,
      Option.pure_def, Option.some_inj]
    omega
  · rename_i hnonneg
    rw [integer?_digits]
    congr 1
    omega

theorem notMem_integerChars {c : Char} (hc : c.isDigit = false) (hsign : c ≠ '-') (n : Int) :
    c ∉ integerChars n := by
  rw [integerChars]
  split
  · rw [List.mem_cons, not_or]
    exact ⟨hsign, notMem_digits hc _⟩
  · exact notMem_digits hc _

/-- **What is written is read back.** -/
theorem ofChars?_chars (x : Rat) : ofChars? (chars x) = some x := by
  have hslash : '/' ∉ integerChars x.num := notMem_integerChars (by decide) (by decide) x.num
  have hrun : ∀ c ∈ integerChars x.num, decide (c ≠ '/') = true := fun c hc =>
    decide_eq_true fun h => hslash (h ▸ hc)
  rw [chars]
  split
  · rename_i hden
    rw [ofChars?, List.dropWhile_eq_nil_iff.mpr hrun]
    simp only [integer?_integerChars]
    rw [Rat.den_eq_one_iff] at hden
    exact congrArg some hden
  · rename_i hden
    have hstop : decide ('/' ≠ '/') = false := by decide
    rw [ofChars?, List.dropWhile_append_of_pos hrun, List.dropWhile_cons, hstop,
      List.takeWhile_append_of_pos hrun, List.takeWhile_cons, hstop]
    simp only [Bool.false_eq_true, if_false, List.append_nil, integer?_integerChars,
      integer?_digits]
    rw [if_neg (by exact_mod_cast x.den_nz)]
    exact congrArg some (by exact_mod_cast Rat.num_div_den x)

theorem chars_injective : Function.Injective chars := by
  intro x y h
  have hread := congrArg ofChars? h
  rwa [ofChars?_chars, ofChars?_chars, Option.some_inj] at hread

/-! ## The characters of a number -/

/-- The characters that numbers are written with. -/
def IsNumeral (c : Char) : Prop :=
  c.isDigit = true ∨ c = '-' ∨ c = '/'

instance : DecidablePred IsNumeral := fun _ => inferInstanceAs (Decidable (_ ∨ _ ∨ _))

theorem isNumeral_of_mem_integerChars {n : Int} {c : Char} (hc : c ∈ integerChars n) :
    IsNumeral c := by
  by_contra h
  rw [IsNumeral, not_or, not_or, Bool.not_eq_true] at h
  exact notMem_integerChars h.1 h.2.1 n hc

theorem isNumeral_of_mem_chars {x : Rat} {c : Char} (hc : c ∈ chars x) : IsNumeral c := by
  rw [chars] at hc
  split at hc
  · exact isNumeral_of_mem_integerChars hc
  · rcases List.mem_append.mp hc with hc | hc
    · exact isNumeral_of_mem_integerChars hc
    · rcases List.mem_cons.mp hc with rfl | hc
      · exact .inr (.inr rfl)
      · exact .inl (isDigit_of_mem_digits hc)

theorem chars_append_inj {x y : Rat} {r s : List Char} (hr : Text.StopsAt IsNumeral r)
    (hs : Text.StopsAt IsNumeral s) (h : chars x ++ r = chars y ++ s) : x = y ∧ r = s := by
  obtain ⟨hxy, hrs⟩ := Text.split_run (fun _ => isNumeral_of_mem_chars)
    (fun _ => isNumeral_of_mem_chars) hr hs h
  exact ⟨chars_injective hxy, hrs⟩

theorem chars_ne_nil (x : Rat) : chars x ≠ [] := by
  intro h
  have hread := ofChars?_chars x
  rw [h] at hread
  cases hread

/-- Only negative numbers carry a sign. -/
theorem sign_notMem_chars {x : Rat} (hx : 0 ≤ x) : '-' ∉ chars x := by
  have hnum : ¬x.num < 0 := not_lt.mpr (Rat.num_nonneg.mpr hx)
  have hsign : '-' ∉ integerChars x.num := by
    rw [integerChars, if_neg hnum]
    exact notMem_digits (by decide) _
  rw [chars]
  split
  · exact hsign
  · rw [List.mem_append, List.mem_cons, not_or, not_or]
    exact ⟨hsign, by decide, notMem_digits (by decide) _⟩

end Rational

end AlgebraicReals
