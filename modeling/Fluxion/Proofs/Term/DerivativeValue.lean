import Fluxion.Proofs.Term.RealValue
import Fluxion.Proofs.Term.SimplifyValue
import Fluxion.Term.Derivative

/-!
# The value of a derivative

At every point where a term is smooth, its simplified derivative has a value, and that is the
derivative of the real function that the term stands for. The derivative as the rules build it need
not have a value there: the derivative of `x ^ 0` is built as `0 * x ^ (-1)`.
-/

namespace Fluxion

open Filter Topology Function

namespace Term

variable {α : Type} [ExactScalar α] {env : String → ℝ} {var : String}

open Interpretation (exact_smooth)

omit [ExactScalar α] in
theorem eq_symbol_of_isSymbol {name : String} {t : Term α} (h : t.isSymbol name = true) :
    t = symbol name := by
  fun_cases isSymbol name t with
  | case1 s => rw [eq_of_beq h]
  | case2 => simp_all [isSymbol]

/-- Squares are smooth everywhere. -/
theorem power_smooth_two (u : ℝ) :
    (Interpretation.smooth : Interpretation α ℝ).power u Scalar.two = some (u ^ 2) := by
  rw [Interpretation.power_smooth, ExactScalar.toReal_two]
  exact ⟨⟨ExactScalar.isFinite_two, .inr (.inl ⟨2, by norm_num⟩)⟩, Real.rpow_two u⟩

/-- The rule for a function gives the derivative of the function. -/
theorem eval?_outerDerivative {f : Func} {arg : Term α} {u : ℝ}
    (harg : arg.eval? .smooth env = some u) (hf : f.SmoothAt u) :
    ∃ d, (outerDerivative f arg).eval? .smooth env = some d ∧ HasDerivAt f.toReal d u := by
  have hone : (const (1 : α)).eval? .smooth env = some 1 :=
    eval?_const.2 ⟨ExactScalar.isFinite_one, ExactScalar.toReal_one⟩
  have hcall (g : Func) (hg : g.SmoothAt u) : (call g arg).eval? .smooth env = some (g.toReal u) :=
    eval?_call.2 ⟨u, harg, Interpretation.apply_smooth.2 ⟨hg, rfl⟩⟩
  cases f with
  | sin => exact ⟨_, hcall .cos trivial, Real.hasDerivAt_sin u⟩
  | cos =>
    have hneg : (const (-1 : α)).eval? .smooth env = some (-1) :=
      eval?_const.2 ⟨exact_smooth.isFinite_negOne, exact_smooth.number_negOne⟩
    refine ⟨-1 * Real.sin u, eval?_product.2 ⟨-1, hneg, _, hcall .sin trivial, rfl⟩, ?_⟩
    rw [neg_one_mul]
    exact Real.hasDerivAt_cos u
  | tan =>
    have hcos : Real.cos u ≠ 0 := hf
    have hq : (quotient (const 1) (call .cos arg) : Term α).eval? .smooth env =
        some (1 / Real.cos u) :=
      eval?_quotient.2 ⟨1, hone, _, hcall .cos trivial, hcos, rfl⟩
    refine ⟨(1 / Real.cos u) ^ 2, eval?_power.2 ⟨_, hq, power_smooth_two _⟩, ?_⟩
    rw [one_div_pow]
    exact Real.hasDerivAt_tan hcos
  | ln =>
    have hu : u ≠ 0 := (show 0 < u from hf).ne'
    refine ⟨1 / u, eval?_quotient.2 ⟨1, hone, u, harg, hu, rfl⟩, ?_⟩
    rw [one_div]
    exact Real.hasDerivAt_log hu
  | log =>
    have hu : u ≠ 0 := (show 0 < u from hf).ne'
    have hten : Real.log 10 ≠ 0 := (Real.log_pos (by norm_num)).ne'
    have hlnTen : (const (Scalar.lnTen : α)).eval? .smooth env = some (Real.log 10) :=
      eval?_const.2 ⟨ExactScalar.isFinite_lnTen, ExactScalar.toReal_lnTen⟩
    have hden : (product arg (const Scalar.lnTen)).eval? .smooth env = some (u * Real.log 10) :=
      eval?_product.2 ⟨u, harg, _, hlnTen, rfl⟩
    have hden0 : u * Real.log 10 ≠ 0 := mul_ne_zero hu hten
    refine ⟨1 / (u * Real.log 10), eval?_quotient.2 ⟨1, hone, _, hden, hden0, rfl⟩, ?_⟩
    rw [one_div, mul_inv, ← div_eq_mul_inv]
    exact (Real.hasDerivAt_log hu).div_const (Real.log 10)
  | exp => exact ⟨_, hcall .exp trivial, Real.hasDerivAt_exp u⟩

/-- The rule for a power gives the derivative of the power after simplification, also for the power
`u ^ 0` at zero, where the factor `u ^ (-1)` of the rule has no value. -/
theorem eval?_simplify_powerDerivative {b : Term α} {e : α} {u : ℝ}
    (hb : b.simplify.eval? .smooth env = some u) (he : Scalar.isFinite e = true)
    (hs : SmoothPower u (ExactScalar.toReal e)) :
    (powerDerivative b e).simplify.eval? .smooth env =
      some (ExactScalar.toReal e * u ^ (ExactScalar.toReal e - 1)) := by
  have hpred : ExactScalar.toReal (e - 1) = ExactScalar.toReal e - 1 := by
    rw [ExactScalar.toReal_sub he ExactScalar.isFinite_one (ExactScalar.isFinite_pred he),
      ExactScalar.toReal_one]
  have hconst : (const e).simplify.eval? .smooth env = some (ExactScalar.toReal e) :=
    eval?_const.2 ⟨he, rfl⟩
  have hregular (hs' : SmoothPower u (ExactScalar.toReal e - 1)) :
      (powerDerivative b e).simplify.eval? .smooth env =
        some (ExactScalar.toReal e * u ^ (ExactScalar.toReal e - 1)) := by
    have hpower : (power b (e - 1)).simplify.eval? .smooth env =
        some (u ^ (ExactScalar.toReal e - 1)) := by
      refine Simplified.refines_pow exact_smooth _ _ _ (eval?_power.2 ⟨u, hb, ?_⟩)
      rw [Interpretation.power_smooth, hpred]
      exact ⟨⟨ExactScalar.isFinite_pred he, hs'⟩, rfl⟩
    exact Simplified.eval?_simplify_product exact_smooth hconst hpower
  rcases hs with hpos | ⟨n, hn⟩ | ⟨hu, n, hn⟩
  · exact hregular (.inl hpos)
  · cases n with
    | zero =>
      have he0 : ExactScalar.toReal e = 0 := by simpa using hn
      have hbeq : (e == 0) = true := by
        apply ExactScalar.beq_of_toReal he ExactScalar.isFinite_zero
        rw [he0, ExactScalar.toReal_zero]
      rw [he0, zero_mul]
      exact Simplified.eval?_scale_zero exact_smooth hbeq
        fun w hw => Simplified.isFinite_of_pow_eq_const exact_smooth hb hw
    | succ n => exact hregular (.inr (.inl ⟨n, by rw [hn]; push_cast; ring⟩))
  · exact hregular (.inr (.inr ⟨hu, n - 1, by rw [hn]; push_cast; ring⟩))

/-- At the point given by `env`, the simplified derivative of the term has the derivative of the
term as its value. -/
def HasSlope (env : String → ℝ) (var : String) (t : Term α) : Prop :=
  ∃ d, (t.derivative var).simplify.eval? .smooth env = some d ∧
    HasDerivAt (fun x => t.real (update env var x)) d (env var)

/-- Simplification keeps the value of a term that is smooth. -/
theorem eval?_simplify_of_smoothAt {t : Term α} (ht : t.Proper) (hs : t.SmoothAt env) :
    t.simplify.eval? .smooth env = some (t.real env) :=
  Simplified.refines_ofTerm exact_smooth t _ (eval?_smooth_iff.2 ⟨ht, hs, rfl⟩)

theorem hasSlope_symbol (name : String) : HasSlope env var (symbol name : Term α) := by
  by_cases hname : name = var
  · subst hname
    refine ⟨1, ?_, ?_⟩
    · simp only [derivative, beq_self_eq_true, if_true]
      exact eval?_const.2 ⟨ExactScalar.isFinite_one, ExactScalar.toReal_one⟩
    · simp only [real, update_self]
      exact hasDerivAt_id (env name)
  · refine ⟨0, ?_, ?_⟩
    · simp only [derivative, beq_iff_eq, hname, if_false]
      exact eval?_const.2 ⟨ExactScalar.isFinite_zero, ExactScalar.toReal_zero⟩
    · simp only [real, update_of_ne hname]
      exact hasDerivAt_const (env var) (env name)

theorem hasSlope_product {l r : Term α} (hl : HasSlope env var l) (hr : HasSlope env var r)
    (vl : l.simplify.eval? .smooth env = some (l.real env))
    (vr : r.simplify.eval? .smooth env = some (r.real env)) :
    HasSlope env var (product l r) := by
  obtain ⟨dl, hdl, hl⟩ := hl
  obtain ⟨dr, hdr, hr⟩ := hr
  have hleft := Simplified.eval?_simplify_product exact_smooth hdl vr
  have hright := Simplified.eval?_simplify_product exact_smooth vl hdr
  refine ⟨_, Simplified.eval?_simplify_sum exact_smooth hleft hright, ?_⟩
  have hmul := hl.mul hr
  rw [update_eq_self] at hmul
  exact hmul

theorem hasSlope_quotient {l r : Term α} (hl : HasSlope env var l) (hr : HasSlope env var r)
    (vl : l.simplify.eval? .smooth env = some (l.real env))
    (vr : r.simplify.eval? .smooth env = some (r.real env)) (hr0 : r.real env ≠ 0) :
    HasSlope env var (quotient l r) := by
  obtain ⟨dl, hdl, hl⟩ := hl
  obtain ⟨dr, hdr, hr⟩ := hr
  have hleft := Simplified.eval?_simplify_product exact_smooth hdl vr
  have hright := Simplified.eval?_simplify_product exact_smooth vl hdr
  have hnum := Simplified.eval?_simplify_difference exact_smooth hleft hright
  have hden : (power r Scalar.two).simplify.eval? .smooth env = some (r.real env ^ 2) := by
    refine Simplified.refines_pow exact_smooth _ _ _ (eval?_power.2 ⟨_, vr, ?_⟩)
    exact power_smooth_two (r.real env)
  refine ⟨_, Simplified.eval?_simplify_quotient exact_smooth hnum hden (pow_ne_zero 2 hr0), ?_⟩
  have hdiv := hl.div hr (by rwa [update_eq_self])
  rw [update_eq_self] at hdiv
  exact hdiv

theorem hasSlope_power {b : Term α} {e : α} (hb : HasSlope env var b)
    (vb : b.simplify.eval? .smooth env = some (b.real env)) (he : Scalar.isFinite e = true)
    (hs : SmoothPower (b.real env) (ExactScalar.toReal e)) : HasSlope env var (power b e) := by
  obtain ⟨db, hdb, hb⟩ := hb
  have houter := eval?_simplify_powerDerivative vb he hs
  have hchain : HasDerivAt (fun x => (power b e).real (update env var x))
      (ExactScalar.toReal e * b.real env ^ (ExactScalar.toReal e - 1) * db) (env var) := by
    have hpow := hs.hasDerivAt
    rw [← update_eq_self var env] at hpow
    have hcomp := hpow.comp (env var) hb
    rw [update_eq_self] at hcomp
    exact hcomp
  by_cases hsym : b.isSymbol var = true
  · -- the base is the variable, whose derivative the rule leaves out
    have hdb1 : db = 1 := by
      simp only [eq_symbol_of_isSymbol hsym, derivative, beq_self_eq_true, if_true] at hdb
      exact (eval?_const.1 hdb).2.symm.trans ExactScalar.toReal_one
    refine ⟨_, ?_, hchain⟩
    simp only [derivative, hsym, if_true, hdb1, mul_one]
    exact houter
  · refine ⟨_, ?_, hchain⟩
    simp only [derivative, hsym]
    exact Simplified.eval?_simplify_product exact_smooth houter hdb

theorem hasSlope_call {f : Func} {a : Term α} (ha : HasSlope env var a)
    (va : a.eval? .smooth env = some (a.real env)) (hf : f.SmoothAt (a.real env)) :
    HasSlope env var (call f a) := by
  obtain ⟨da, hda, ha⟩ := ha
  obtain ⟨df, hdf, hf⟩ := eval?_outerDerivative va hf
  have houter := Simplified.refines_ofTerm exact_smooth _ _ hdf
  refine ⟨df * da, Simplified.eval?_simplify_product exact_smooth houter hda, ?_⟩
  rw [← update_eq_self var env] at hf
  exact hf.comp (env var) ha

/-- The simplified derivative of a term has, wherever the term is smooth, the derivative of the term
as its value. -/
theorem hasSlope_of_smoothAt (var : String) {t : Term α} (ht : t.Proper)
    (hs : t.SmoothAt env) : HasSlope env var t := by
  induction t with
  | const v =>
    exact ⟨0, eval?_const.2 ⟨ExactScalar.isFinite_zero, ExactScalar.toReal_zero⟩,
      hasDerivAt_const _ _⟩
  | symbol name => exact hasSlope_symbol name
  | sum l r ihl ihr =>
    obtain ⟨dl, hdl, hl⟩ := ihl ht.1 hs.1
    obtain ⟨dr, hdr, hr⟩ := ihr ht.2 hs.2
    exact ⟨dl + dr, Simplified.eval?_simplify_sum exact_smooth hdl hdr, hl.add hr⟩
  | difference l r ihl ihr =>
    obtain ⟨dl, hdl, hl⟩ := ihl ht.1 hs.1
    obtain ⟨dr, hdr, hr⟩ := ihr ht.2 hs.2
    exact ⟨dl - dr, Simplified.eval?_simplify_difference exact_smooth hdl hdr, hl.sub hr⟩
  | product l r ihl ihr =>
    have vl := eval?_simplify_of_smoothAt ht.1 hs.1
    have vr := eval?_simplify_of_smoothAt ht.2 hs.2
    exact hasSlope_product (ihl ht.1 hs.1) (ihr ht.2 hs.2) vl vr
  | quotient l r ihl ihr =>
    have vl := eval?_simplify_of_smoothAt ht.1 hs.1
    have vr := eval?_simplify_of_smoothAt ht.2 hs.2.1
    exact hasSlope_quotient (ihl ht.1 hs.1) (ihr ht.2 hs.2.1) vl vr hs.2.2
  | power b e ih =>
    exact hasSlope_power (ih ht.1 hs.1) (eval?_simplify_of_smoothAt ht.1 hs.1) ht.2 hs.2
  | call f a ih => exact hasSlope_call (ih ht hs.1) (eval?_smooth_iff.2 ⟨ht, hs.1, rfl⟩) hs.2

/-- Near a point where a term is smooth, it is smooth as well. -/
theorem SmoothAt.eventually (var : String) {t : Term α} (ht : t.Proper)
    (hs : t.SmoothAt env) :
    ∀ᶠ x in 𝓝 (env var), t.SmoothAt (update env var x) := by
  have hlim (s : Term α) (hp : s.Proper) (hs : s.SmoothAt env) :
      Tendsto (fun x => s.real (update env var x)) (𝓝 (env var)) (𝓝 (s.real env)) := by
    obtain ⟨d, -, hd⟩ := hasSlope_of_smoothAt var hp hs
    simpa only [update_eq_self] using hd.continuousAt.tendsto
  induction t with
  | const v => exact .of_forall fun x => trivial
  | symbol name => exact .of_forall fun x => trivial
  | sum l r ihl ihr | difference l r ihl ihr | product l r ihl ihr =>
    exact (ihl ht.1 hs.1).and (ihr ht.2 hs.2)
  | quotient l r ihl ihr =>
    have hne : ∀ᶠ x in 𝓝 (env var), r.real (update env var x) ≠ 0 :=
      (hlim r ht.2 hs.2.1).eventually_ne hs.2.2
    exact (ihl ht.1 hs.1).and ((ihr ht.2 hs.2.1).and hne)
  | power b e ih => exact (ih ht.1 hs.1).and ((hlim b ht.1 hs.1).eventually hs.2.eventually)
  | call f a ih => exact (ih ht hs.1).and ((hlim a ht hs.1).eventually hs.2.eventually)

end Term

end Fluxion
