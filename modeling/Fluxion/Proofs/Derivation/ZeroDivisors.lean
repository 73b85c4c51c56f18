import Fluxion.Proofs.Derivation.NormalOrders

/-!
# Zero divisors

An expression that divides by zero is refused where the zero is written as such, and otherwise
where it shows in a derivative. A divisor that only simplifies to zero does show in the first
derivative, as the square of that zero, if nothing but sums, differences, signs and smooth functions
stands around the quotient. Factors and powers may erase it before it is looked for.
-/

namespace Fluxion

namespace Term

open Simplified (same byStep reciprocal? scale add addNode sub subNode mul mulRight mulFactors div pow neg)

variable {α : Type} [Scalar α]

/-- The divisor of a quotient in the term simplifies to zero, and differentiation brings it to
light. -/
inductive Exposed : Term α → Prop
  | quotient (l : Term α) {r : Term α} : r.simplify.isValue 0 = true → Exposed (.quotient l r)
  | sumLeft {l : Term α} (r : Term α) : Exposed l → Exposed (.sum l r)
  | sumRight (l : Term α) {r : Term α} : Exposed r → Exposed (.sum l r)
  | differenceLeft {l : Term α} (r : Term α) : Exposed l → Exposed (.difference l r)
  | differenceRight (l : Term α) {r : Term α} : Exposed r → Exposed (.difference l r)
  | opposite {t : Term α} : Exposed t → Exposed (.product (.const (-1)) t)
  | call {f : Func} {a : Term α} : f ∈ [.sin, .cos, .tan, .exp] → Exposed a → Exposed (.call f a)

/-- Whether a summand or a factor is divided by the constant zero. -/
def divergent : Term α → Bool
  | sum l r | difference l r | product l r => l.divergent || r.divergent
  | quotient _ r => r.isValue 0
  | _ => false

theorem dividesByZero_of_divergent {t : Term α} (h : t.divergent = true) :
    t.dividesByZero = true := by
  induction t with
  | sum l r ihl ihr | difference l r ihl ihr | product l r ihl ihr =>
    rcases Bool.or_eq_true_iff.1 h with h | h
    · exact Bool.or_eq_true_iff.2 (.inl (ihl h))
    · exact Bool.or_eq_true_iff.2 (.inr (ihr h))
  | quotient l r _ _ =>
    have hzero : r.isValue 0 = true := h
    simp only [dividesByZero, hzero, Bool.true_or]
  | const _ | symbol _ | power _ _ _ | call _ _ _ => cases h

theorem not_isConst_of_divergent {t : Term α} (h : t.divergent = true) : t.isConst = false := by
  cases t with
  | const v => cases h
  | symbol _ | sum _ _ | difference _ _ | product _ _ | quotient _ _ | power _ _ | call _ _ => rfl

theorem not_divergent_of_isValue {t : Term α} {v : α} (h : t.isValue v = true) :
    ¬ t.divergent = true := by
  intro hdivergent
  rw [isValue_of_not_isConst v (not_isConst_of_divergent hdivergent)] at h
  cases h

/-! ## Simplification keeps divergence -/

theorem divergent_of_negated {s t : Term α} (h : Negated s t) (hs : s.divergent = true) :
    t.divergent = true := by
  cases h with
  | constant v => cases hs
  | multiple => exact hs
  | dropped => exact hs
  | coefficient => exact hs
  | reciprocal => exact hs

theorem divergent_addNode {l r : Term α} (h : l.divergent = true ∨ r.divergent = true) :
    (addNode l r).term.divergent = true := by
  unfold addNode
  split
  · next hr => exact h.resolve_right (not_divergent_of_isValue hr)
  · split
    · next hl => exact h.resolve_left (not_divergent_of_isValue hl)
    · exact Bool.or_eq_true_iff.2 h

theorem divergent_add {l r : Term α} (h : l.divergent = true ∨ r.divergent = true) :
    (add l r).term.divergent = true := by
  unfold add
  split
  · rcases h with h | h <;> cases h
  · exact divergent_addNode h

/-- Two factors, the first of which is no reciprocal. A reciprocal on the right divides the first one
by zero. -/
theorem divergent_mulFactors {l r : Term α} (hlfactor : l.isFactor = true)
    (hnone : reciprocal? l = none) (hr : r.Normal) (hrfactor : r.isFactor = true)
    (h : r.divergent = true) :
    (mulFactors l r).term.divergent = true ∧
      ∀ c, plainMultiple c r = true → plainMultiple c (mulFactors l r).term = true := by
  unfold mulFactors
  split
  · next d hd =>
    rw [hnone] at hd
    cases hd
  · split
    · next d hd =>
      obtain ⟨one, rfl, -⟩ := Simplified.reciprocal?_eq_some hd
      have hplain : plainQuotient l d = true := by
        have hzero : d.isValue 0 = true := h
        rw [plainQuotient, (Bool.and_eq_true_iff.1 hr.2.2).1, hzero]
        rfl
      rw [(Simplified.div_builds l d).of_plain hplain]
      refine ⟨h, ?_⟩
      intro c hc
      rw [Simplified.plainMultiple_of_isFactor c hrfactor, hd, Option.isNone_some,
        Bool.and_false] at hc
      cases hc
    · next hd =>
      split
      · refine ⟨Bool.or_eq_true_iff.2 (.inl h), ?_⟩
        intro c hc
        rw [Simplified.plainMultiple_of_isFactor c hrfactor, hd] at hc
        rw [byStep, Simplified.plainMultiple_of_isFactor c (isFactor_product l hrfactor)]
        exact hc
      · refine ⟨Bool.or_eq_true_iff.2 (.inr h), ?_⟩
        intro c hc
        rw [Simplified.plainMultiple_of_isFactor c hrfactor, hd] at hc
        rw [same, Simplified.plainMultiple_of_isFactor c (isFactor_product r hlfactor)]
        exact hc

/-- A factor that is no reciprocal keeps divergence, and any coefficient that fits still fits. -/
theorem divergent_mulRight {l r : Term α} (hfactor : l.isFactor = true)
    (hnone : reciprocal? l = none) (hr : r.Normal) (h : r.divergent = true) :
    (mulRight l r).term.divergent = true ∧
      ∀ c, plainMultiple c r = true → plainMultiple c (mulRight l r).term = true := by
  fun_induction mulRight l r with
  | case1 c => cases h
  | case2 c r ih =>
    obtain ⟨hdivergent, hfits⟩ := ih hr.2.1 h
    have hbuilds := (Simplified.scale_builds c _).of_plain (hfits c hr.2.2)
    have hterm : (((mulRight l r).andThen (scale c)).after .combineCoefficients).term =
        .product (.const c) (mulRight l r).term := congrArg Simplified.term hbuilds
    rw [hterm]
    exact ⟨hdivergent, fun d hd => hd⟩
  | case3 r hconst hmultiple =>
    exact divergent_mulFactors hfactor hnone hr (Simplified.isFactor_eq_true hconst hmultiple) h

theorem divergent_mul {l r : Term α} (hfactor : l.isFactor = true)
    (hnone : reciprocal? l = none) (hr : r.Normal) (h : r.divergent = true) :
    (mul l r).term.divergent = true := by
  have hmul : mul l r = mulRight l r := by
    fun_cases mul l r with
    | case1 c r => cases hfactor
    | case2 c l d => cases hfactor
    | case3 c l r => cases hfactor
    | case4 => rfl
  rw [hmul]
  exact (divergent_mulRight hfactor hnone hr h).1

variable [SymmetricScalar α]

theorem divergent_neg {t : Term α} (ht : t.Normal) (h : t.divergent = true) :
    (neg t).term.divergent = true :=
  divergent_of_negated (Simplified.neg_spec ht) h

theorem divergent_subNode {l r : Term α} (hr : r.Normal)
    (h : l.divergent = true ∨ r.divergent = true) : (subNode l r).term.divergent = true := by
  unfold subNode
  split
  · next hzero => exact h.resolve_right (not_divergent_of_isValue hzero)
  · split
    · next hzero => exact divergent_neg hr (h.resolve_left (not_divergent_of_isValue hzero))
    · exact Bool.or_eq_true_iff.2 h

theorem divergent_sub {l r : Term α} (hr : r.Normal) (h : l.divergent = true ∨ r.divergent = true) :
    (sub l r).term.divergent = true := by
  unfold sub
  split
  · rcases h with h | h <;> cases h
  · exact divergent_subNode hr h

/-- The square of zero is zero, and a quotient by zero stays as it is. -/
theorem divergent_div_square (l : Term α) {r : Term α} (h : r.isValue 0 = true) :
    (div l (pow r Scalar.two).term).term.divergent = true := by
  cases r with
  | const v =>
    have hpow : pow (.const v) Scalar.two = byStep .foldConstants (.const (Scalar.pow v Scalar.two)) := by
      rw [pow, SymmetricScalar.two_ne_zero, SymmetricScalar.two_ne_one]
      simp only [Bool.false_eq_true, if_false, Simplified.foldOr, SymmetricScalar.isFinite_square h,
        if_true]
    have hzero : (const (Scalar.pow v Scalar.two) : Term α).isValue 0 = true :=
      SymmetricScalar.square_eq_zero h
    have hone : (const (Scalar.pow v Scalar.two) : Term α).isValue 1 = false :=
      SymmetricScalar.ne_one_of_eq_zero hzero
    have hplain : plainQuotient l (const (Scalar.pow v Scalar.two)) = true := by
      rw [plainQuotient, hzero, hone]
      rfl
    rw [hpow, byStep, (Simplified.div_builds l _).of_plain hplain]
    exact hzero
  | symbol _ | sum _ _ | difference _ _ | product _ _ | quotient _ _ | power _ _ | call _ _ => cases h

/-! ## Differentiation exposes zero divisors -/

/-- A function is multiplied with the derivative of its argument. -/
theorem divergent_chain {f : Func} (hf : f ∈ [.sin, .cos, .tan, .exp]) (arg : Term α) {t : Term α}
    (ht : t.Normal) (h : t.divergent = true) :
    (mul (outerDerivative f arg).simplify t).term.divergent = true := by
  cases f with
  | sin => exact divergent_mul rfl rfl ht h
  | cos =>
    -- the minus of the sine is a coefficient, and is taken out of the product
    have hplain : plainMultiple (-1) (call .sin arg.simplify) = true := by
      rw [Simplified.plainMultiple_of_isFactor (-1) rfl, SymmetricScalar.negOne_ne_zero,
        SymmetricScalar.negOne_ne_one]
      rfl
    have houter : (outerDerivative .cos arg).simplify =
        product (const (-1)) (call .sin arg.simplify) :=
      congrArg Simplified.term ((Simplified.scale_builds _ _).of_plain hplain)
    rw [houter, Simplified.mul_multiple_term (-1) _ (not_isConst_of_divergent h)]
    have hproduct := divergent_mul (l := call .sin arg.simplify) rfl rfl ht h
    exact divergent_neg (Simplified.normal_mul (Simplified.normal_ofTerm (call .sin arg)) ht) hproduct
  | tan =>
    have hquotient : plainQuotient (const 1) (call .cos arg.simplify) = true := by
      have hone : (const 1 : Term α).isValue 0 = false := SymmetricScalar.one_ne_zero
      rw [plainQuotient, hone]
      rfl
    have hpower : plainPower (quotient (const 1) (call .cos arg.simplify)) Scalar.two = true := by
      unfold plainPower
      rw [SymmetricScalar.two_ne_zero, SymmetricScalar.two_ne_one]
      rfl
    have houter : (outerDerivative .tan arg).simplify =
        power (quotient (const 1) (call .cos arg.simplify)) Scalar.two := by
      change (pow (div (const 1) (call .cos arg.simplify)).term Scalar.two).term = _
      rw [(Simplified.div_builds _ _).of_plain hquotient]
      exact congrArg Simplified.term ((Simplified.pow_builds _ _).of_plain hpower)
    rw [houter]
    exact divergent_mul rfl rfl ht h
  | exp => exact divergent_mul rfl rfl ht h
  | ln => simp at hf
  | log => simp at hf

theorem divergent_derivative (var : String) {t : Term α} (h : t.Exposed) :
    (t.derivative var).simplify.divergent = true := by
  induction h with
  | quotient l hr => exact divergent_div_square _ hr
  | sumLeft r _ ih => exact divergent_add (.inl ih)
  | sumRight l _ ih => exact divergent_add (.inr ih)
  | differenceLeft r _ ih => exact divergent_sub (Simplified.normal_ofTerm _) (.inl ih)
  | differenceRight l _ ih => exact divergent_sub (Simplified.normal_ofTerm _) (.inr ih)
  | opposite _ ih => exact divergent_add (.inr (divergent_neg (Simplified.normal_ofTerm _) ih))
  | call hf _ ih => exact divergent_chain hf _ (Simplified.normal_ofTerm _) ih

/-! ## Canonical order keeps divisions by zero -/

omit [SymmetricScalar α] in
theorem exists_summand_dividesByZero {t : Term α} (h : t.dividesByZero = true) (subtracted : Bool) :
    ∃ s ∈ t.summandsOf subtracted, s.term.dividesByZero = true := by
  induction t generalizing subtracted with
  | sum l r ihl ihr | difference l r ihl ihr =>
    rcases Bool.or_eq_true_iff.1 h with h | h
    · obtain ⟨s, hs, hzero⟩ := ihl h subtracted
      exact ⟨s, List.mem_append_left _ hs, hzero⟩
    · obtain ⟨s, hs, hzero⟩ := ihr h _
      exact ⟨s, List.mem_append_right _ hs, hzero⟩
  | const _ | symbol _ | product _ _ _ _ | quotient _ _ _ _ | power _ _ _ | call _ _ _ =>
    exact ⟨_, List.mem_singleton_self _, h⟩

omit [SymmetricScalar α] in
theorem dividesByZero_append (t : Term α) (s : Summand α) :
    (t.append s).dividesByZero = (t.dividesByZero || s.term.dividesByZero) := by
  unfold append
  split <;> rfl

omit [SymmetricScalar α] in
theorem dividesByZero_foldl_append (t : Term α) (rest : List (Summand α)) :
    (rest.foldl append t).dividesByZero =
      (t.dividesByZero || rest.any fun s => s.term.dividesByZero) := by
  induction rest generalizing t with
  | nil => simp
  | cons s rest ih => rw [List.foldl_cons, ih, dividesByZero_append, List.any_cons, Bool.or_assoc]

theorem dividesByZero_ofFirst {s : Summand α} (h : s.term.Normal) :
    (ofFirst s).dividesByZero = s.term.dividesByZero := by
  unfold ofFirst
  split
  · exact dividesByZero_of_negated (Simplified.neg_spec h)
  · rfl

theorem dividesByZero_canonicalize (var : String) {t : Term α} (ht : t.Normal)
    (h : t.dividesByZero = true) : (t.canonicalize var).dividesByZero = true := by
  unfold canonicalize
  split
  · next hadditive =>
    have hmem : ∀ s, s ∈ t.summands.mergeSort (mayPrecede var) ↔ s ∈ t.summandsOf false :=
      fun s => List.mem_mergeSort
    obtain ⟨s, hs, hzero⟩ := exists_summand_dividesByZero h false
    rw [← hmem] at hs
    generalize t.summands.mergeSort (mayPrecede var) = sorted at hs hmem
    cases sorted with
    | nil => cases hs
    | cons first rest =>
      have hfirst : first.term.Normal :=
        (normal_of_mem_summandsOf ht (isValue_of_isAdditive 0 hadditive) false
          ((hmem first).1 List.mem_cons_self)).1
      rw [ofSummands, dividesByZero_foldl_append, dividesByZero_ofFirst hfirst]
      rcases List.mem_cons.1 hs with rfl | hs
      · exact Bool.or_eq_true_iff.2 (.inl hzero)
      · exact Bool.or_eq_true_iff.2 (.inr (List.any_eq_true.2 ⟨s, hs, hzero⟩))
  · exact h

end Term

namespace Derivation

variable {α : Type} [Scalar α] [SymmetricScalar α] {options : Options}

theorem next_dividesByZero (options : Options) (var : String) {t : Term α} (h : t.Exposed) :
    (next options var t).dividesByZero = true := by
  have hzero := Term.dividesByZero_of_divergent (Term.divergent_derivative var h)
  unfold next
  split
  · exact Term.dividesByZero_canonicalize var (Simplified.normal_ofTerm _) hzero
  · exact hzero

/-- The first derivative of a term with an exposed zero divisor is refused. -/
theorem take_exposed {var : String} {t : Term α} {order count : Nat} (hcount : count ≠ 0)
    (h : t.Exposed) :
    take options var t order count = .error (.underivable .divisionByZero []) := by
  obtain ⟨count, rfl⟩ := Nat.exists_eq_succ_of_ne_zero hcount
  rw [take]
  exact if_pos (next_dividesByZero options var h)

variable [Numeral α]

omit [SymmetricScalar α] in
theorem readTerm_eq {expression : String} {e : Expr α} {t : Term α}
    (hread : (Expr.ofText expression : Except Fault (Expr α)) = .ok e)
    (hterm : Term.ofExpr options.maxDepth e = .ok t) :
    readTerm options expression =
      match e.zeroDivisor? with
      | some span => .error (.underivable .divisionByZero [span])
      | none => if t.dividesByZero then .error (.underivable .divisionByZero []) else .ok t := by
  unfold readTerm
  rw [hread]
  change ((Term.ofExpr options.maxDepth e).mapError _ >>= _) = _
  rw [hterm]
  rfl

/-- A valid request is refused with a division by zero if its expression divides by a written zero,
if its term divides by the constant zero, or if differentiation exposes a divisor that simplifies to
zero. -/
theorem compute_divisionByZero {request : Request} {var : String} {order : Nat} {e : Expr α}
    {t : Term α} (hvalid : request.validate options = .ok (var, order))
    (hread : (Expr.ofText request.expression : Except Fault (Expr α)) = .ok e)
    (hterm : Term.ofExpr options.maxDepth e = .ok t)
    (h : e.zeroDivisor?.isSome = true ∨ t.dividesByZero = true ∨ t.Exposed) :
    (compute request options : Except Failure (Derivation α)) =
      .error (.underivable .divisionByZero e.zeroDivisor?.toList) := by
  rw [compute_eq hvalid, readTerm_eq hread hterm]
  cases hspan : e.zeroDivisor? with
  | some span => rfl
  | none =>
    cases hzero : t.dividesByZero with
    | true => rfl
    | false =>
      have hexposed : t.Exposed := by
        simpa [hspan, hzero] using h
      change (take options var t 1 order >>= _) = _
      obtain ⟨-, -, horder⟩ := validate_spec hvalid
      rw [take_exposed horder hexposed]
      rfl

/-- The divisor of `sin(1/(0*x)) + x` is not written as zero, but simplifies to it. -/
theorem compute_divisionByZero_sine :
    (compute ⟨"sin(1/(0*x)) + x", "x", 1⟩ {} : Except Failure (Derivation ℤ)) =
      .error (.underivable .divisionByZero []) := by
  have hvalid : Request.validate ⟨"sin(1/(0*x)) + x", "x", 1⟩ {} = .ok ("x", 1) := by decide +kernel
  obtain ⟨e, hread, hspan, hterm⟩ :
      ∃ e : Expr ℤ, Expr.ofText "sin(1/(0*x)) + x" = .ok e ∧ e.zeroDivisor? = none ∧
        Term.ofExpr 512 e = .ok (.sum (.call .sin
          (.quotient (.const 1) (.product (.const 0) (.symbol "x")))) (.symbol "x")) := by
    refine ⟨_, by cbv, ?_, ?_⟩
    · rfl
    · rfl
  have hexposed : (Term.sum (.call .sin (.quotient (.const 1) (.product (.const 0) (.symbol "x"))))
      (.symbol "x") : Term ℤ).Exposed :=
    .sumLeft _ (.call (by decide) (.quotient _ rfl))
  have hrefused := compute_divisionByZero hvalid hread hterm (.inr (.inr hexposed))
  rw [hspan] at hrefused
  exact hrefused

/-- The factor zero erases a quotient by zero before it is looked for. -/
theorem computed_zero_divisor :
    ∃ d : Derivation ℤ, compute ⟨"0*(1/(0*x))", "x", 1⟩ {} = .ok d ∧
      d.term = .product (.const 0) (.quotient (.const 1) (.product (.const 0) (.symbol "x"))) ∧
      (Term.product (.const 0) (.symbol "x") : Term ℤ).simplify = .const 0 ∧
      d.orders = [.const 0] := by
  have hvalid : Request.validate ⟨"0*(1/(0*x))", "x", 1⟩ {} = .ok ("x", 1) := by decide +kernel
  have horders : take {} "x" (.product (.const 0)
      (.quotient (.const 1) (.product (.const 0) (.symbol "x"))) : Term ℤ) 1 1 =
      .ok [.const 0] := by cbv
  have hread : readTerm {} "0*(1/(0*x))" = .ok (.product (.const 0)
      (.quotient (.const 1) (.product (.const 0) (.symbol "x"))) : Term ℤ) := by cbv
  exact ⟨_, compute_eq_ok.2 ⟨_, _, _, _, hvalid, hread, horders, rfl⟩, rfl, rfl, rfl⟩

end Derivation

end Fluxion
