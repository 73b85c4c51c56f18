import Fluxion.Proofs.Scalar.Exact

/-!
# Real values of terms

A term with exact numbers as a function on the real numbers. The function is total; where it is the
function that the term means, and smooth, is what `SmoothAt` says. Smoothness is kept near a point,
and a term is smooth at a point if and only if it has a value there.
-/

namespace Fluxion

open Filter Topology

namespace Term

variable {α : Type} [ExactScalar α]

/-- The real number that a term stands for; arbitrary where the term is not defined. -/
noncomputable def real (env : String → ℝ) : Term α → ℝ
  | const v => ExactScalar.toReal v
  | symbol name => env name
  | sum l r => l.real env + r.real env
  | difference l r => l.real env - r.real env
  | product l r => l.real env * r.real env
  | quotient l r => l.real env / r.real env
  | power b e => b.real env ^ ExactScalar.toReal e
  | call f a => f.toReal (a.real env)

/-- Whether a term is smooth at a point: no denominator is zero, and every power and every function
is smooth at its operand. -/
def SmoothAt (env : String → ℝ) : Term α → Prop
  | const _ | symbol _ => True
  | sum l r | difference l r | product l r => l.SmoothAt env ∧ r.SmoothAt env
  | quotient l r => l.SmoothAt env ∧ r.SmoothAt env ∧ r.real env ≠ 0
  | power b e => b.SmoothAt env ∧ SmoothPower (b.real env) (ExactScalar.toReal e)
  | call f a => a.SmoothAt env ∧ f.SmoothAt (a.real env)

/-- A term with proper numbers has a value exactly where it is smooth, and the value is the real
number that the term stands for. -/
theorem eval?_smooth_iff {env : String → ℝ} {t : Term α} {x : ℝ} :
    t.eval? .smooth env = some x ↔ t.Proper ∧ t.SmoothAt env ∧ t.real env = x := by
  induction t generalizing x with
  | const v => simp [Proper, SmoothAt, real]
  | symbol name => simp [Proper, SmoothAt, real]
  | sum l r ihl ihr | difference l r ihl ihr | product l r ihl ihr =>
    simp only [eval?_sum, eval?_difference, eval?_product, ihl, ihr, Proper, SmoothAt, real]
    constructor
    · rintro ⟨y, ⟨pl, sl, rfl⟩, z, ⟨pr, sr, rfl⟩, rfl⟩
      exact ⟨⟨pl, pr⟩, ⟨sl, sr⟩, rfl⟩
    · rintro ⟨⟨pl, pr⟩, ⟨sl, sr⟩, rfl⟩
      exact ⟨_, ⟨pl, sl, rfl⟩, _, ⟨pr, sr, rfl⟩, rfl⟩
  | quotient l r ihl ihr =>
    simp only [eval?_quotient, ihl, ihr, Proper, SmoothAt, real]
    constructor
    · rintro ⟨y, ⟨pl, sl, rfl⟩, z, ⟨pr, sr, rfl⟩, hr, rfl⟩
      exact ⟨⟨pl, pr⟩, ⟨sl, sr, hr⟩, rfl⟩
    · rintro ⟨⟨pl, pr⟩, ⟨sl, sr, hr⟩, rfl⟩
      exact ⟨_, ⟨pl, sl, rfl⟩, _, ⟨pr, sr, rfl⟩, hr, rfl⟩
  | power b e ih =>
    simp only [eval?_power, Interpretation.power_smooth, ih, Proper, SmoothAt, real]
    constructor
    · rintro ⟨y, ⟨pb, sb, rfl⟩, ⟨he, hs⟩, rfl⟩
      exact ⟨⟨pb, he⟩, ⟨sb, hs⟩, rfl⟩
    · rintro ⟨⟨pb, he⟩, ⟨sb, hs⟩, rfl⟩
      exact ⟨_, ⟨pb, sb, rfl⟩, ⟨he, hs⟩, rfl⟩
  | call f a ih =>
    simp only [eval?_call, Interpretation.apply_smooth, ih, Proper, SmoothAt, real]
    constructor
    · rintro ⟨y, ⟨pa, sa, rfl⟩, hs, rfl⟩
      exact ⟨pa, ⟨sa, hs⟩, rfl⟩
    · rintro ⟨pa, ⟨sa, hs⟩, rfl⟩
      exact ⟨_, ⟨pa, sa, rfl⟩, hs, rfl⟩

end Term

/-! ## Powers and functions near a point -/

/-- The derivative of a smooth power. -/
theorem SmoothPower.hasDerivAt {u e : ℝ} (h : SmoothPower u e) :
    HasDerivAt (fun u => u ^ e) (e * u ^ (e - 1)) u := by
  rcases h with hpos | ⟨n, rfl⟩ | ⟨hu, -⟩
  · exact Real.hasDerivAt_rpow_const (.inl hpos.ne')
  · cases n with
    | zero => simpa using hasDerivAt_const u (1 : ℝ)
    | succ n => exact Real.hasDerivAt_rpow_const (.inr (by simp))
  · exact Real.hasDerivAt_rpow_const (.inl hu)

theorem SmoothPower.eventually {u e : ℝ} (h : SmoothPower u e) :
    ∀ᶠ v in 𝓝 u, SmoothPower v e := by
  rcases h with hpos | hnat | ⟨hu, hint⟩
  · exact (lt_mem_nhds hpos).mono fun v hv => .inl hv
  · exact .of_forall fun v => .inr (.inl hnat)
  · exact (eventually_ne_nhds hu).mono fun v hv => .inr (.inr ⟨hv, hint⟩)

theorem Func.SmoothAt.eventually {f : Func} {u : ℝ} (h : f.SmoothAt u) :
    ∀ᶠ v in 𝓝 u, f.SmoothAt v := by
  cases f with
  | sin | cos | exp => exact .of_forall fun v => trivial
  | tan => exact Real.continuous_cos.continuousAt.eventually_ne h
  | ln | log => exact lt_mem_nhds h

end Fluxion
