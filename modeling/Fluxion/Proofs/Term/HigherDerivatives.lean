import Fluxion.Proofs.Term.CanonicalValue
import Fluxion.Proofs.Term.DerivativeValue

/-!
# Higher derivatives

The derivatives of a term are taken one from the other. Each is simplified and put in canonical
order, so the next one starts from another term, but from a term with the same value at every point
where the function is smooth; and a point where it is smooth is surrounded by such points. Hence
each has the value of the derivative of its order.
-/

namespace Fluxion

open Filter Topology Function

/-- A function with a derivative that can be differentiated `n` times can be differentiated once
more. -/
theorem contDiffAt_succ_of_hasDerivAt {n : ℕ} {f g : ℝ → ℝ} {x : ℝ}
    (hf : ∀ᶠ y in 𝓝 x, HasDerivAt f (g y) y) (hg : ContDiffAt ℝ n g x) :
    ContDiffAt ℝ (n + 1 : ℕ) f x := by
  push_cast
  rw [contDiffAt_succ_iff_hasFDerivAt]
  refine ⟨fun y => ContinuousLinearMap.toSpanSingleton ℝ (g y), ⟨_, hf, ?_⟩, ?_⟩
  · intro y hy
    exact HasDerivAt.hasFDerivAt hy
  · exact (ContinuousLinearMap.toSpanSingletonLIE ℝ ℝ).contDiff.contDiffAt.comp x hg

namespace Term

variable {α : Type} [ExactScalar α] {env : String → ℝ}

open Interpretation (exact_smooth)

/-- A term as a function of a variable, with the other symbols held fixed. -/
noncomputable def along (env : String → ℝ) (var : String) (t : Term α) : ℝ → ℝ :=
  fun x => t.real (update env var x)

/-- At a point where a term is smooth, its derivative in canonical order is smooth, and has the
derivative of the term as its value. -/
theorem derive_spec (var : String) {t : Term α} (ht : t.Proper) (hs : t.SmoothAt env) :
    (t.derive var).Proper ∧ (t.derive var).SmoothAt env ∧
      HasDerivAt (t.along env var) ((t.derive var).real env) (env var) := by
  obtain ⟨d, hd, hderiv⟩ := hasSlope_of_smoothAt var ht hs
  have hcanonical := refines_canonicalize exact_smooth var _ d hd
  obtain ⟨hproper, hsmooth, rfl⟩ := eval?_smooth_iff.1 hcanonical
  exact ⟨hproper, hsmooth, hderiv⟩

/-- The same for all points near one where the term is smooth. -/
theorem eventually_hasDerivAt_along (var : String) {t : Term α} (ht : t.Proper)
    (hs : t.SmoothAt env) :
    ∀ᶠ x in 𝓝 (env var), HasDerivAt (t.along env var) ((t.derive var).along env var x) x := by
  filter_upwards [SmoothAt.eventually var ht hs] with x hx
  have hderiv := (derive_spec var ht hx).2.2
  have hline : t.along (update env var x) var = t.along env var := by
    funext y
    simp only [along, update_idem]
  rwa [hline, update_self] at hderiv

/-- Around a point where it is smooth, a term can be differentiated as often as wanted, and the
terms that are computed as its derivatives have the values of these at the point. -/
theorem derivatives_spec (var : String) (n : ℕ) {t : Term α} (ht : t.Proper)
    (hs : t.SmoothAt env) :
    ContDiffAt ℝ n (t.along env var) (env var) ∧
      ∀ k (hk : k < (t.derivatives var n).length),
        ((t.derivatives var n)[k]).SmoothAt env ∧
        ((t.derivatives var n)[k]).real env =
          iteratedDeriv (k + 1) (t.along env var) (env var) := by
  induction n generalizing t with
  | zero =>
    obtain ⟨-, -, hderiv⟩ := derive_spec var ht hs
    have hcont : ∀ᶠ x in 𝓝 (env var), ContinuousAt (t.along env var) x :=
      (eventually_hasDerivAt_along var ht hs).mono fun x hx => hx.continuousAt
    refine ⟨contDiffAt_zero.2 ⟨_, hcont, fun x hx => hx.continuousWithinAt⟩, ?_⟩
    intro k hk
    exact absurd hk (Nat.not_lt_zero k)
  | succ n ih =>
    obtain ⟨dproper, dsmooth, hderiv⟩ := derive_spec var ht hs
    obtain ⟨dcont, dvalues⟩ := ih dproper dsmooth
    have hnear := eventually_hasDerivAt_along var ht hs
    refine ⟨contDiffAt_succ_of_hasDerivAt hnear dcont, ?_⟩
    have heq : deriv (t.along env var) =ᶠ[𝓝 (env var)] (t.derive var).along env var :=
      hnear.mono fun x hx => hx.deriv
    intro k hk
    cases k with
    | zero =>
      refine ⟨dsmooth, ?_⟩
      rw [iteratedDeriv_one]
      exact hderiv.deriv.symm
    | succ k =>
      obtain ⟨hsmooth, hvalue⟩ := dvalues k (Nat.lt_of_succ_lt_succ hk)
      refine ⟨hsmooth, ?_⟩
      rw [iteratedDeriv_succ', heq.iteratedDeriv_eq (k + 1)]
      exact hvalue

end Term

end Fluxion
