import Fluxion.Proofs.Term.HigherDerivatives
import Fluxion.Proofs.Term.OfExprProper

/-!
# The derivative as the rules build it

At a regular point of a term, the rules give its derivative without the help of simplification: what
they build has a value there, and the value is the derivative of the term. A point where a term is
smooth is regular unless an operand is zero there that is raised to the power zero; the rule for
powers divides by this operand.
-/

namespace Fluxion

/-- Where the rule for powers can be applied to `u ^ e`: at every positive base, and for integers `e`
also at negative bases, and at zero if `e` is at least one. -/
def RegularPower (u e : ℝ) : Prop :=
  (u ≠ 0 ∨ 1 ≤ e) ∧ (0 < u ∨ ∃ n : ℤ, e = n)

namespace RegularPower

variable {u e : ℝ}

theorem smooth (h : RegularPower u e) : SmoothPower u e := by
  obtain ⟨hbase, hpos | ⟨n, rfl⟩⟩ := h
  · exact .inl hpos
  · rcases hbase with hu | hn
    · exact .inr (.inr ⟨hu, n, rfl⟩)
    · have hn : (1 : ℤ) ≤ n := by exact_mod_cast hn
      obtain ⟨k, rfl⟩ := Int.eq_ofNat_of_zero_le (by omega : 0 ≤ n)
      exact .inr (.inl ⟨k, by simp⟩)

/-- The power that the rule builds, with the exponent reduced by one, is smooth as well. -/
theorem smooth_pred (h : RegularPower u e) : SmoothPower u (e - 1) := by
  obtain ⟨hbase, hpos | ⟨n, rfl⟩⟩ := h
  · exact .inl hpos
  · rcases hbase with hu | hn
    · exact .inr (.inr ⟨hu, n - 1, by push_cast; rfl⟩)
    · have hn : (1 : ℤ) ≤ n := by exact_mod_cast hn
      obtain ⟨k, hk⟩ := Int.eq_ofNat_of_zero_le (by omega : 0 ≤ n - 1)
      refine .inr (.inl ⟨k, ?_⟩)
      calc (n : ℝ) - 1 = ((n - 1 : ℤ) : ℝ) := by push_cast; rfl
        _ = k := by rw [hk]; simp

end RegularPower

namespace Term

variable {α : Type} [ExactScalar α] {env : String → ℝ} {var : String}

/-- Whether every rule that differentiates the term can be applied at a point: no denominator is
zero, no argument of a logarithm is zero or negative, no argument of a tangent has the cosine zero,
and the powers are regular. -/
def RegularAt (env : String → ℝ) : Term α → Prop
  | const _ | symbol _ => True
  | sum l r | difference l r | product l r => l.RegularAt env ∧ r.RegularAt env
  | quotient l r => l.RegularAt env ∧ r.RegularAt env ∧ r.real env ≠ 0
  | power b e => b.RegularAt env ∧ RegularPower (b.real env) (ExactScalar.toReal e)
  | call f a => a.RegularAt env ∧ f.SmoothAt (a.real env)

theorem RegularAt.smooth {t : Term α} (h : t.RegularAt env) : t.SmoothAt env := by
  induction t with
  | const _ | symbol _ => trivial
  | sum l r ihl ihr | difference l r ihl ihr | product l r ihl ihr => exact ⟨ihl h.1, ihr h.2⟩
  | quotient l r ihl ihr => exact ⟨ihl h.1, ihr h.2.1, h.2.2⟩
  | power b e ih => exact ⟨ih h.1, h.2.smooth⟩
  | call f a ih => exact ⟨ih h.1, h.2⟩

theorem proper_derivative (var : String) {t : Term α} (h : t.Proper) : (t.derivative var).Proper :=
  (proper_iff_madeOf _).2 (madeOf_derivative var ((proper_iff_madeOf t).1 h))

/-- The square of a term that is smooth is smooth, and has the square of its value. -/
theorem smoothAt_square {t : Term α} (h : t.SmoothAt env) :
    (power t Scalar.two).SmoothAt env ∧ (power t Scalar.two).real env = t.real env ^ 2 := by
  refine ⟨⟨h, .inr (.inl ⟨2, ?_⟩)⟩, ?_⟩
  · rw [ExactScalar.toReal_two, Nat.cast_ofNat]
  · rw [real, ExactScalar.toReal_two, Real.rpow_two]

/-- The power that the rule for powers builds is smooth. -/
theorem smoothAt_powerDerivative {b : Term α} {e : α} (hb : b.SmoothAt env)
    (he : Scalar.isFinite e = true) (h : RegularPower (b.real env) (ExactScalar.toReal e)) :
    (powerDerivative b e).SmoothAt env := by
  have hpred : ExactScalar.toReal (e - 1) = ExactScalar.toReal e - 1 := by
    rw [ExactScalar.toReal_sub he ExactScalar.isFinite_one (ExactScalar.isFinite_pred he),
      ExactScalar.toReal_one]
  refine ⟨trivial, hb, ?_⟩
  rw [hpred]
  exact h.smooth_pred

/-- What the rule for a function builds is smooth where the function is. -/
theorem smoothAt_outerDerivative {f : Func} {arg : Term α} (harg : arg.SmoothAt env)
    (hf : f.SmoothAt (arg.real env)) : (outerDerivative f arg).SmoothAt env := by
  cases f with
  | sin => exact ⟨harg, trivial⟩
  | cos => exact ⟨trivial, harg, trivial⟩
  | tan =>
    have hquotient : (quotient (const 1) (call .cos arg)).SmoothAt env :=
      ⟨trivial, ⟨harg, trivial⟩, hf⟩
    exact (smoothAt_square hquotient).1
  | ln => exact ⟨trivial, harg, (show 0 < arg.real env from hf).ne'⟩
  | log =>
    have hten : Real.log 10 ≠ 0 := (Real.log_pos (by norm_num)).ne'
    refine ⟨trivial, ⟨harg, trivial⟩, ?_⟩
    rw [real, real, ExactScalar.toReal_lnTen]
    exact mul_ne_zero (show 0 < arg.real env from hf).ne' hten
  | exp => exact ⟨harg, trivial⟩

/-- What the rules build for a term is smooth at the regular points of the term. -/
theorem RegularAt.smooth_derivative (var : String) {t : Term α} (ht : t.Proper)
    (h : t.RegularAt env) : (t.derivative var).SmoothAt env := by
  induction t with
  | const _ | symbol _ => trivial
  | sum l r ihl ihr | difference l r ihl ihr => exact ⟨ihl ht.1 h.1, ihr ht.2 h.2⟩
  | product l r ihl ihr =>
    exact ⟨⟨ihl ht.1 h.1, h.2.smooth⟩, h.1.smooth, ihr ht.2 h.2⟩
  | quotient l r ihl ihr =>
    obtain ⟨hl, hr, hr0⟩ := h
    obtain ⟨hsquare, hvalue⟩ := smoothAt_square hr.smooth
    refine ⟨⟨⟨ihl ht.1 hl, hr.smooth⟩, hl.smooth, ihr ht.2 hr⟩, hsquare, ?_⟩
    rw [hvalue]
    exact pow_ne_zero 2 hr0
  | power b e ih =>
    have houter := smoothAt_powerDerivative h.1.smooth ht.2 h.2
    unfold derivative
    split
    · exact houter
    · exact ⟨houter, ih ht.1 h.1⟩
  | call f a ih => exact ⟨smoothAt_outerDerivative h.1.smooth h.2, ih ht h.1⟩

/-- At every regular point of a term, the derivative that the rules build has a value, and this is
the derivative of the term with respect to the variable, with the other symbols held fixed. -/
theorem derivative_gives_slope (var : String) {t : Term α} (ht : t.Proper)
    (h : t.RegularAt env) :
    (t.derivative var).eval? .smooth env = some ((t.derivative var).real env) ∧
      HasDerivAt (t.along env var) ((t.derivative var).real env) (env var) := by
  have hvalue : (t.derivative var).eval? .smooth env = some ((t.derivative var).real env) :=
    eval?_smooth_iff.2 ⟨proper_derivative var ht, h.smooth_derivative var ht, rfl⟩
  refine ⟨hvalue, ?_⟩
  -- the simplified derivative has the same value, and it is known to be the slope
  obtain ⟨d, hd, hslope⟩ := hasSlope_of_smoothAt var ht h.smooth
  have hsimplified := Simplified.refines_ofTerm Interpretation.exact_smooth _ _ hvalue
  have heq : (t.derivative var).real env = d := Option.some.inj (hsimplified.symm.trans hd)
  rw [heq]
  exact hslope

/-- The rules for quotients, powers, tangents and logarithms can all be applied to `tan(x^3) / ln(y)`
where `x` is zero, so that the base of the power is zero, and `y` is two. -/
theorem derivative_gives_slope_tangent :
    let t : Term ℝ := .quotient (.call .tan (.power (.symbol "x") 3)) (.call .ln (.symbol "y"))
    let env : String → ℝ := fun name => if name = "y" then 2 else 0
    t.Proper ∧ t.RegularAt env ∧
    (t.derivative "x").eval? .smooth env = some ((t.derivative "x").real env) ∧
      HasDerivAt (t.along env "x") ((t.derivative "x").real env) (env "x") := by
  intro t env
  have hx : env "x" = 0 := if_neg (by decide)
  have hy : env "y" = 2 := if_pos rfl
  have hproper : t.Proper := ⟨⟨trivial, rfl⟩, trivial⟩
  have hregular : t.RegularAt env := by
    refine ⟨⟨⟨trivial, .inr ?_, .inr ⟨3, ?_⟩⟩, ?_⟩, ⟨trivial, ?_⟩, ?_⟩
    · change (1 : ℝ) ≤ 3
      norm_num
    · change (3 : ℝ) = _
      norm_num
    · change Real.cos (env "x" ^ (3 : ℝ)) ≠ 0
      rw [hx, Real.zero_rpow (by norm_num), Real.cos_zero]
      exact one_ne_zero
    · change 0 < env "y"
      rw [hy]
      norm_num
    · change Real.log (env "y") ≠ 0
      rw [hy]
      exact (Real.log_pos (by norm_num)).ne'
  exact ⟨hproper, hregular, derivative_gives_slope "x" hproper hregular⟩

end Term

end Fluxion
