import Fluxion.Proofs.Term.Value

/-!
# Exact numbers

Numbers that are read as real numbers, and whose arithmetic is exact: a result that is a proper
number is read as what it should be. The real numbers themselves are such numbers. Powers and
functions are read as those of real analysis, where they are smooth.
-/

namespace Fluxion

/-- Where a real power is smooth in its base: for positive bases, and elsewhere for the exponents
that are integers, at zero only if they are not negative. -/
def SmoothPower (u e : ℝ) : Prop :=
  0 < u ∨ (∃ n : ℕ, e = n) ∨ u ≠ 0 ∧ ∃ n : ℤ, e = n

/-- Where a function is defined and smooth. -/
def Func.SmoothAt (u : ℝ) : Func → Prop
  | sin | cos | exp => True
  | tan => Real.cos u ≠ 0
  | ln | log => 0 < u

/-- The function of real analysis. -/
noncomputable def Func.toReal : Func → ℝ → ℝ
  | sin => Real.sin
  | cos => Real.cos
  | tan => Real.tan
  | ln => Real.log
  | log => fun u => Real.log u / Real.log 10
  | exp => Real.exp

/-- Numbers that stand for real numbers, and are calculated with as these: wherever a result is a
proper number, it stands for the result on real numbers. Proper numbers stay proper when one is
subtracted and when their sign is changed. -/
class ExactScalar (α : Type) extends Scalar α where
  toReal : α → ℝ
  isFinite_zero : Scalar.isFinite (0 : α) = true
  isFinite_one : Scalar.isFinite (1 : α) = true
  isFinite_two : Scalar.isFinite (Scalar.two : α) = true
  isFinite_lnTen : Scalar.isFinite (Scalar.lnTen : α) = true
  isFinite_neg {v : α} : Scalar.isFinite v = true → Scalar.isFinite (-v) = true
  isFinite_pred {v : α} : Scalar.isFinite v = true → Scalar.isFinite (v - 1) = true
  isFinite_congr {v w : α} : (v == w) = true → Scalar.isFinite v = Scalar.isFinite w
  toReal_zero : toReal 0 = 0
  toReal_one : toReal 1 = 1
  toReal_two : toReal Scalar.two = 2
  toReal_lnTen : toReal Scalar.lnTen = Real.log 10
  toReal_congr {v w : α} : (v == w) = true → toReal v = toReal w
  beq_of_toReal {v w : α} : Scalar.isFinite v = true → Scalar.isFinite w = true →
    toReal v = toReal w → (v == w) = true
  toReal_neg {v : α} : Scalar.isFinite v = true → toReal (-v) = -toReal v
  toReal_add {v w : α} : Scalar.isFinite v = true → Scalar.isFinite w = true →
    Scalar.isFinite (v + w) = true → toReal (v + w) = toReal v + toReal w
  toReal_sub {v w : α} : Scalar.isFinite v = true → Scalar.isFinite w = true →
    Scalar.isFinite (v - w) = true → toReal (v - w) = toReal v - toReal w
  toReal_mul {v w : α} : Scalar.isFinite v = true → Scalar.isFinite w = true →
    Scalar.isFinite (v * w) = true → toReal (v * w) = toReal v * toReal w
  toReal_div {v w : α} : Scalar.isFinite v = true → Scalar.isFinite w = true → toReal w ≠ 0 →
    Scalar.isFinite (v / w) = true → toReal (v / w) = toReal v / toReal w
  toReal_pow {v e : α} : Scalar.isFinite v = true → Scalar.isFinite e = true →
    SmoothPower (toReal v) (toReal e) → Scalar.isFinite (Scalar.pow v e) = true →
    toReal (Scalar.pow v e) = toReal v ^ toReal e

open scoped Classical in
/-- The real numbers, all of which are proper. -/
noncomputable instance exactReal : ExactScalar ℝ where
  zero := 0
  one := 1
  add := (· + ·)
  sub := (· - ·)
  mul := (· * ·)
  div := (· / ·)
  neg := (- ·)
  beq x y := decide (x = y)
  two := 2
  lnTen := Real.log 10
  pow := (· ^ ·)
  apply := Func.toReal
  isFinite _ := true
  isNegative x := decide (x < 0)
  atMost x y := decide (x ≤ y)
  toReal := id
  isFinite_zero := rfl
  isFinite_one := rfl
  isFinite_two := rfl
  isFinite_lnTen := rfl
  isFinite_neg _ := rfl
  isFinite_pred _ := rfl
  isFinite_congr _ := rfl
  toReal_zero := rfl
  toReal_one := rfl
  toReal_two := rfl
  toReal_lnTen := rfl
  toReal_congr h := of_decide_eq_true h
  beq_of_toReal _ _ h := decide_eq_true h
  toReal_neg _ := rfl
  toReal_add _ _ _ := rfl
  toReal_sub _ _ _ := rfl
  toReal_mul _ _ _ := rfl
  toReal_div _ _ _ _ := rfl
  toReal_pow _ _ _ _ := rfl

/-- Numbers all of which are proper, so that nothing is left unfolded because of an overflow. -/
class UnboundedScalar (α : Type) [Scalar α] : Prop where
  isFinite (v : α) : Scalar.isFinite v = true

instance : UnboundedScalar ℝ where
  isFinite _ := rfl

variable {α : Type} [ExactScalar α]

namespace UnboundedScalar

open ExactScalar (toReal)

variable [UnboundedScalar α]

theorem beq_iff {v w : α} : (v == w) = true ↔ toReal v = toReal w :=
  ⟨ExactScalar.toReal_congr, ExactScalar.beq_of_toReal (isFinite v) (isFinite w)⟩

theorem toReal_add (v w : α) : toReal (v + w) = toReal v + toReal w :=
  ExactScalar.toReal_add (isFinite v) (isFinite w) (isFinite _)

theorem toReal_sub (v w : α) : toReal (v - w) = toReal v - toReal w :=
  ExactScalar.toReal_sub (isFinite v) (isFinite w) (isFinite _)

theorem toReal_mul (v w : α) : toReal (v * w) = toReal v * toReal w :=
  ExactScalar.toReal_mul (isFinite v) (isFinite w) (isFinite _)

/-- A power with a natural exponent. -/
theorem toReal_pow (v : α) {e : α} {k : ℕ} (he : toReal e = k) :
    toReal (Scalar.pow v e) = toReal v ^ k := by
  rw [ExactScalar.toReal_pow (isFinite v) (isFinite e) (.inr (.inl ⟨k, he⟩)) (isFinite _), he,
    Real.rpow_natCast]

end UnboundedScalar

open scoped Classical in
/-- Powers and functions as those of real analysis, where they are smooth. -/
noncomputable def Interpretation.smooth : Interpretation α ℝ where
  number := ExactScalar.toReal
  power u e :=
    if Scalar.isFinite e = true ∧ SmoothPower u (ExactScalar.toReal e) then
      some (u ^ ExactScalar.toReal e)
    else
      none
  apply f u := if f.SmoothAt u then some (f.toReal u) else none

namespace Interpretation

@[simp] theorem number_smooth (v : α) : smooth.number v = ExactScalar.toReal v := rfl

@[simp] theorem power_smooth {u x : ℝ} {e : α} : smooth.power u e = some x ↔
    (Scalar.isFinite e = true ∧ SmoothPower u (ExactScalar.toReal e)) ∧
      u ^ ExactScalar.toReal e = x := by
  simp [smooth]

@[simp] theorem apply_smooth {f : Func} {u x : ℝ} :
    (smooth : Interpretation α ℝ).apply f u = some x ↔ f.SmoothAt u ∧ f.toReal u = x := by
  simp [smooth]

/-- Exact numbers are read as exact. -/
theorem exact_smooth : (smooth : Interpretation α ℝ).Exact where
  isFinite_zero := ExactScalar.isFinite_zero
  isFinite_one := ExactScalar.isFinite_one
  isFinite_negOne := ExactScalar.isFinite_neg ExactScalar.isFinite_one
  number_zero := ExactScalar.toReal_zero
  number_one := ExactScalar.toReal_one
  number_negOne := by
    rw [number_smooth, ExactScalar.toReal_neg ExactScalar.isFinite_one, ExactScalar.toReal_one]
  isFinite_congr := ExactScalar.isFinite_congr
  number_congr := ExactScalar.toReal_congr
  power_congr u h := by
    ext x
    simp only [power_smooth]
    rw [ExactScalar.isFinite_congr h, ExactScalar.toReal_congr h]
  number_add := ExactScalar.toReal_add
  number_sub := ExactScalar.toReal_sub
  number_mul := ExactScalar.toReal_mul
  number_div := ExactScalar.toReal_div
  number_pow hv hfin h := by
    obtain ⟨⟨he, hsmooth⟩, rfl⟩ := power_smooth.1 h
    exact ExactScalar.toReal_pow hv he hsmooth hfin
  power_zero {e} u h := by
    have he : ExactScalar.toReal e = 0 :=
      (ExactScalar.toReal_congr h).trans ExactScalar.toReal_zero
    have hfin : Scalar.isFinite e = true :=
      (ExactScalar.isFinite_congr h).trans ExactScalar.isFinite_zero
    exact power_smooth.2 ⟨⟨hfin, .inr (.inl ⟨0, by simpa using he⟩)⟩, by rw [he, Real.rpow_zero]⟩
  power_one {e} u h := by
    have he : ExactScalar.toReal e = 1 :=
      (ExactScalar.toReal_congr h).trans ExactScalar.toReal_one
    have hfin : Scalar.isFinite e = true :=
      (ExactScalar.isFinite_congr h).trans ExactScalar.isFinite_one
    exact power_smooth.2 ⟨⟨hfin, .inr (.inl ⟨1, by simpa using he⟩)⟩, by rw [he, Real.rpow_one]⟩

end Interpretation

end Fluxion
