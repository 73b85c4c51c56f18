import Fluxion.Derivation
import Fluxion.Proofs.Expr.Soundness
import Fluxion.Proofs.Term.HigherDerivatives
import Fluxion.Proofs.Term.OfExprProper

/-!
# The derivatives of a request

A request that is answered is answered with the derivatives of the term that was read, one for each
order, and at every point where the term is smooth each has the value of the derivative of its
order.
-/

namespace Fluxion.Derivation

section Steps

variable {α : Type} [Scalar α] {options : Options} {var : String}

theorem take_succ_eq_ok {count order : Nat} {t : Term α} {orders : List (Term α)} :
    take options var t order (count + 1) = .ok orders ↔
      (next options var t).dividesByZero = false ∧
      (next options var t).size ≤ options.maxNodes ∧
      ∃ rest, take options var (next options var t) (order + 1) count = .ok rest ∧
        next options var t :: rest = orders := by
  rw [take]
  constructor
  · intro h
    split at h
    · cases h
    · next hzero =>
      split at h
      · cases h
      · next hsize =>
        obtain ⟨rest, hrest, hcons⟩ := bind_eq_ok.1 h
        cases hcons
        exact ⟨Bool.eq_false_iff.2 hzero, Nat.le_of_not_lt hsize, rest, hrest, rfl⟩
  · rintro ⟨hzero, hsize, rest, hrest, rfl⟩
    rw [hzero, if_neg Bool.false_ne_true, if_neg (Nat.not_lt_of_le hsize)]
    exact bind_eq_ok.2 ⟨rest, hrest, rfl⟩

/-- What holds of a term, and goes over to the derivative, holds of all derivatives that are taken.
None of them divides by zero or is larger than allowed. -/
theorem forall_mem_take {P : Term α → Prop} (hnext : ∀ t, P t → P (next options var t))
    {count order : Nat} {t : Term α} {orders : List (Term α)} (ht : P t)
    (h : take options var t order count = .ok orders) :
    ∀ s ∈ orders, P s ∧ s.dividesByZero = false ∧ s.size ≤ options.maxNodes := by
  induction count generalizing t order orders with
  | zero =>
    cases h
    intro s hs
    cases hs
  | succ count ih =>
    obtain ⟨hzero, hsize, rest, hrest, rfl⟩ := take_succ_eq_ok.1 h
    intro s hs
    rcases List.mem_cons.1 hs with rfl | hs
    · exact ⟨hnext t ht, hzero, hsize⟩
    · exact ih (hnext t ht) hrest s hs

/-- In canonical order, the derivatives that are taken are those of the term. -/
theorem take_eq_derivatives (hcanonical : options.canonicalOrder = true) {count order : Nat}
    {t : Term α} {orders : List (Term α)} (h : take options var t order count = .ok orders) :
    orders = t.derivatives var count := by
  induction count generalizing t order orders with
  | zero =>
    cases h
    rfl
  | succ count ih =>
    have hnext : next options var t = t.derive var := by
      unfold next
      rw [if_pos hcanonical]
      rfl
    obtain ⟨-, -, rest, hrest, rfl⟩ := take_succ_eq_ok.1 h
    rw [ih hrest, hnext]
    rfl

theorem length_derivatives (t : Term α) (count : Nat) :
    (t.derivatives var count).length = count := by
  induction count generalizing t with
  | zero => rfl
  | succ count ih =>
    rw [Term.derivatives, List.length_cons, ih]

/-- A valid request asks for a positive order of a variable. -/
theorem validate_spec {request : Request} {order : Nat}
    (h : request.validate options = .ok (var, order)) :
    var = request.trimmedVariable ∧ (order : Int) = request.order ∧ order ≠ 0 := by
  unfold Request.validate at h
  dsimp only at h
  split at h
  · cases h
  · split at h
    · cases h
    · split at h
      · cases h
      · split at h
        · cases h
        · split at h
          · cases h
          · cases h
            exact ⟨rfl, by omega, by omega⟩

variable [Numeral α]

theorem mapError_eq_ok {ε ε' β : Type} {f : ε → ε'} {x : Except ε β} {b : β} :
    x.mapError f = .ok b ↔ x = .ok b := by
  cases x with
  | ok a =>
    constructor <;> intro h <;> cases h <;> rfl
  | error e =>
    constructor <;> intro h <;> cases h

/-- A term is read if the expression is, if it is not too deep, and if neither of them divides by
zero. -/
theorem readTerm_eq_ok {expression : String} {t : Term α} :
    readTerm options expression = .ok t ↔ ∃ e : Expr α, Expr.ofText expression = .ok e ∧
      Term.ofExpr options.maxDepth e = .ok t ∧ e.zeroDivisor? = none ∧ t.dividesByZero = false := by
  constructor
  · intro h
    obtain ⟨e, he, h⟩ := bind_eq_ok.1 h
    obtain ⟨u, hu, h⟩ := bind_eq_ok.1 h
    split at h
    · cases h
    · next hspan =>
      split at h
      · cases h
      · next hzero =>
        cases h
        exact ⟨e, mapError_eq_ok.1 he, mapError_eq_ok.1 hu, hspan, Bool.eq_false_iff.2 hzero⟩
  · rintro ⟨e, he, ht, hspan, hzero⟩
    refine bind_eq_ok.2 ⟨e, mapError_eq_ok.2 he, bind_eq_ok.2 ⟨t, mapError_eq_ok.2 ht, ?_⟩⟩
    rw [hspan, hzero]
    rfl

theorem compute_eq {request : Request} {order : Nat}
    (hvalid : request.validate options = .ok (var, order)) :
    compute request options = (readTerm options request.expression >>= fun t =>
      take options var t 1 order >>= fun orders =>
        .ok (present options var t orders) : Except Failure (Derivation α)) := by
  unfold compute
  rw [hvalid]
  rfl

/-- A request passes its three stages one after the other. -/
theorem compute_eq_ok {request : Request} {d : Derivation α} :
    compute request options = .ok d ↔ ∃ var order t orders,
      request.validate options = .ok (var, order) ∧ readTerm options request.expression = .ok t ∧
      take options var t 1 order = .ok orders ∧ present options var t orders = d := by
  constructor
  · intro h
    obtain ⟨⟨var, order⟩, hvalid, h⟩ := bind_eq_ok.1 h
    obtain ⟨t, ht, h⟩ := bind_eq_ok.1 h
    obtain ⟨orders, horders, h⟩ := bind_eq_ok.1 h
    cases h
    exact ⟨var, order, t, orders, hvalid, ht, horders, rfl⟩
  · rintro ⟨var, order, t, orders, hvalid, ht, horders, rfl⟩
    exact bind_eq_ok.2 ⟨_, hvalid, bind_eq_ok.2 ⟨_, ht, bind_eq_ok.2 ⟨_, horders, rfl⟩⟩⟩

end Steps

section Exact

variable {α : Type} [ExactScalar α] [Numeral α] {options : Options}

/-- Only proper numbers are read. -/
theorem proper_readTerm {expression : String} {t : Term α}
    (h : readTerm options expression = .ok t) : t.Proper := by
  obtain ⟨e, hread, hterm, -, -⟩ := readTerm_eq_ok.1 h
  exact Expr.proper_term (Expr.spells_of_ofText hread).2 hterm

/-- What is computed is the request, read and differentiated. -/
theorem compute_spec (hcanonical : options.canonicalOrder = true) {request : Request}
    {d : Derivation α} (h : compute request options = .ok d) :
    d.term.Proper ∧ ∃ order : Nat, (order : Int) = request.order ∧
      d.orders = d.term.derivatives request.trimmedVariable order := by
  obtain ⟨⟨var, order⟩, hvalid, h⟩ := bind_eq_ok.1 h
  obtain ⟨t, ht, h⟩ := bind_eq_ok.1 h
  obtain ⟨orders, horders, h⟩ := bind_eq_ok.1 h
  cases h
  obtain ⟨rfl, horder, -⟩ := validate_spec hvalid
  exact ⟨proper_readTerm ht, order, horder, take_eq_derivatives hcanonical horders⟩

/-- If a request is answered, there is one derivative for each order up to the one that was asked
for. These are the derivatives of the term that was read, and wherever that term is smooth, each of
them has the value of the derivative of its order with respect to the variable. -/
theorem compute_gives_derivatives (hcanonical : options.canonicalOrder = true) {request : Request}
    {d : Derivation α} (h : compute request options = .ok d) :
    (d.orders.length : Int) = request.order ∧
    d.orders = d.term.derivatives request.trimmedVariable request.order.toNat ∧
    ∀ env : String → ℝ, d.term.SmoothAt env →
      ContDiffAt ℝ request.order.toNat (d.term.along env request.trimmedVariable)
        (env request.trimmedVariable) ∧
      ∀ k (hk : k < d.orders.length),
        d.orders[k].SmoothAt env ∧
        d.orders[k].real env =
          iteratedDeriv (k + 1) (d.term.along env request.trimmedVariable)
            (env request.trimmedVariable) := by
  obtain ⟨hproper, order, horder, horders⟩ := compute_spec hcanonical h
  have hnat : request.order.toNat = order := by omega
  rw [hnat]
  refine ⟨?_, horders, ?_⟩
  · rw [horders, length_derivatives]
    exact horder
  · intro env hsmooth
    obtain ⟨hcont, hvalues⟩ :=
      Term.derivatives_spec request.trimmedVariable order hproper hsmooth
    refine ⟨hcont, ?_⟩
    intro k hk
    simp only [horders] at hk ⊢
    exact hvalues k hk

end Exact

/-- Real numbers are read as what is written, and written without their fraction. -/
noncomputable instance realNumeral : Numeral ℝ where
  ofDecimal digits places := ((digits / 10 ^ places : ℚ) : ℝ)
  text x := (toString ⌊x⌋).toList
  isShortInteger _ := true

/-- The sine is read, and its first derivative is computed; it is smooth everywhere. -/
theorem compute_gives_derivatives_sine :
    ∃ d : Derivation ℝ, compute ⟨"sin(x)", "x", 1⟩ {} = .ok d ∧ (d.orders.length : Int) = 1 ∧
      ∀ env : String → ℝ, d.term.SmoothAt env ∧
        ∀ k (hk : k < d.orders.length),
          d.orders[k].real env = iteratedDeriv (k + 1) (d.term.along env "x") (env "x") := by
  have hread : (Expr.ofText "sin(x)" : Except Fault (Expr ℝ)) =
      .ok (.call .sin "sin" ⟨0, 3⟩ (.symbol "x" ⟨4, 5⟩) ⟨3, 6⟩) := by cbv
  have hvar : Request.trimmedVariable ⟨"sin(x)", "x", 1⟩ = "x" := by decide +kernel
  have hvalid : Request.validate ⟨"sin(x)", "x", 1⟩ {} = .ok ("x", 1) := by
    have hname : isVariable "x" = true := by decide +kernel
    simp [Request.validate, hvar, hname]
    decide
  have hterm : readTerm {} "sin(x)" = .ok (.call .sin (.symbol "x") : Term ℝ) := by
    unfold readTerm
    rw [hread]
    rfl
  have hzero : ((1 : ℝ) == 0) = false := decide_eq_false one_ne_zero
  have hcos : next {} "x" (.call .sin (.symbol "x") : Term ℝ) = .call .cos (.symbol "x") := by
    change Term.canonicalize "x" (Simplified.mul (.call .cos (.symbol "x")) (.const 1)).term = _
    simp [Simplified.mul, Simplified.mulRight, Simplified.scaleRight, Simplified.scaleBy, hzero,
      Term.canonicalize, Simplified.byStep, Term.isAdditive]
  have horders : take {} "x" (.call .sin (.symbol "x") : Term ℝ) 1 1 =
      .ok [.call .cos (.symbol "x")] := by
    rw [take, hcos]
    rfl
  have hcompute : compute ⟨"sin(x)", "x", 1⟩ {} =
      .ok (present {} "x" (.call .sin (.symbol "x") : Term ℝ) [.call .cos (.symbol "x")]) := by
    unfold compute
    rw [hvalid]
    change (readTerm {} "sin(x)" >>= _) = _
    rw [hterm]
    change (take {} "x" _ 1 1 >>= _) = _
    rw [horders]
    rfl
  obtain ⟨hlength, -, hvalues⟩ := compute_gives_derivatives rfl hcompute
  refine ⟨_, hcompute, hlength, ?_⟩
  intro env
  have hsmooth : (Term.call .sin (.symbol "x") : Term ℝ).SmoothAt env := ⟨trivial, trivial⟩
  have hspec := (hvalues env hsmooth).2
  rw [hvar] at hspec
  exact ⟨hsmooth, fun k hk => (hspec k hk).2⟩

end Fluxion.Derivation
