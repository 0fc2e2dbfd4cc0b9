set_option autoImplicit false

/-! # Coefficient lists

Polynomials are computed on lists of rational coefficients, constant term first.
A list `a :: p` stands for `a + x·p`, and every operation here is a recursion
along that equation. Lists may end in zeros; `Coeffs.trim` removes them. -/

namespace AlgebraicReals.Coeffs

/-- The list without the zeros at its end. -/
def trim : List Rat → List Rat
  | [] => []
  | a :: p =>
    match trim p with
    | [] => if a = 0 then [] else [a]
    | b :: q => a :: b :: q

/-- The value at `x`. -/
def eval : List Rat → Rat → Rat
  | [], _ => 0
  | a :: p, x => a + x * eval p x

/-- The sum. -/
def add : List Rat → List Rat → List Rat
  | [], q => q
  | p, [] => p
  | a :: p, b :: q => (a + b) :: add p q

/-- The multiple by a number. -/
def scale (c : Rat) (p : List Rat) : List Rat :=
  p.map (c * ·)

/-- The product: `(a + x·p)·q = a·q + x·(p·q)`. -/
def mul : List Rat → List Rat → List Rat
  | [], _ => []
  | a :: p, q => add (scale a q) (0 :: mul p q)

/-- The products of the coefficients with `k`, `k + 1`, and so on. -/
def weighted (k : Nat) : List Rat → List Rat
  | [] => []
  | a :: p => ((k : Rat) * a) :: weighted (k + 1) p

/-- Quotient and remainder by a divisor `d`. The division of `a + x·p` extends
that of `p`: with `p = q·d + r` the number `a` joins `x·r`, and if this reaches
the degree of `d`, one more multiple of `d` is taken off, which cancels the
leading coefficient. -/
def divMod (d : List Rat) : List Rat → List Rat × List Rat
  | [] => ([], [])
  | a :: p =>
    let (q, r) := divMod d p
    if r.length + 1 < d.length then (0 :: q, a :: r)
    else
      let f := (a :: r).getLastD 0 / d.getLastD 0
      (f :: q, (add (a :: r) (scale (-f) d)).take (d.length - 1))

/-! ## Zeros at the end -/

theorem getLast?_trim_ne (p : List Rat) : (trim p).getLast? ≠ some 0 := by
  induction p with
  | nil => simp [trim]
  | cons a p ih =>
      unfold trim
      split
      · split <;> simp_all
      · simp_all

theorem length_trim_le (p : List Rat) : (trim p).length ≤ p.length := by
  induction p with
  | nil => simp [trim]
  | cons a p ih =>
      unfold trim
      split
      · split <;> simp
      · simp_all

theorem trim_eq_self {p : List Rat} (h : p.getLast? ≠ some 0) : trim p = p := by
  induction p with
  | nil => rfl
  | cons a p ih =>
      unfold trim
      cases p with
      | nil => simp_all [trim]
      | cons b q => rw [ih (by simpa using h)]

/-! ## Values -/

@[simp] theorem eval_trim (p : List Rat) (x : Rat) : eval (trim p) x = eval p x := by
  induction p with
  | nil => rfl
  | cons a p ih =>
      unfold trim
      split
      · rename_i h
        have hp : eval p x = 0 := by
          rw [← ih, h]
          rfl
        split
        · show 0 = a + x * eval p x
          grind
        · show a + x * 0 = a + x * eval p x
          rw [hp]
      · rename_i b q h
        show a + x * eval (b :: q) x = a + x * eval p x
        rw [← ih, h]

@[simp] theorem eval_add (p q : List Rat) (x : Rat) :
    eval (add p q) x = eval p x + eval q x := by
  induction p generalizing q with
  | nil =>
      simp only [add, eval]
      grind
  | cons a p ih =>
      cases q with
      | nil =>
          simp only [add, eval]
          grind
      | cons b q =>
          simp only [add, eval, ih q]
          grind

@[simp] theorem eval_scale (c : Rat) (p : List Rat) (x : Rat) :
    eval (scale c p) x = c * eval p x := by
  induction p with
  | nil =>
      simp only [scale, List.map_nil, eval]
      grind
  | cons a p ih =>
      simp only [scale, List.map_cons, eval] at ih ⊢
      rw [ih]
      grind

@[simp] theorem eval_mul (p q : List Rat) (x : Rat) :
    eval (mul p q) x = eval p x * eval q x := by
  induction p with
  | nil =>
      simp only [mul, eval]
      grind
  | cons a p ih =>
      simp only [mul, eval_add, eval_scale, eval, ih]
      grind

/-! ## Division gets shorter -/

/-- A remainder is shorter than the divisor, because its leading coefficient is
dropped as soon as it reaches the divisor's. -/
theorem length_divMod_snd_lt (d p : List Rat) (hd : d ≠ []) :
    (divMod d p).2.length < d.length := by
  have hpos : 0 < d.length := List.length_pos_iff.mpr hd
  cases p with
  | nil => simpa [divMod] using hpos
  | cons a p =>
      simp only [divMod]
      split
      · simpa using by assumption
      · simp only [List.length_take]
        omega

end AlgebraicReals.Coeffs
