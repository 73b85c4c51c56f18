import Fluxion.Proofs.Derivation.Checks
import Fluxion.Proofs.Derivation.Orders
import Fluxion.Proofs.Expr.Faults
import Fluxion.Proofs.Expr.ZeroDivisions

/-!
# Which failure is reported

A request is checked before its expression is read, and the first check that fails decides what is
reported, whatever the expression is like. After the checks the expression is read and made into a
term, and only then derivatives are taken. So the stage of a failure tells how far a request came.
-/

namespace Fluxion

/-- Of two steps, the second of which takes the outcome of the first, one fails. -/
theorem bind_eq_error {ε β γ : Type} {x : Except ε β} {f : β → Except ε γ} {failure : ε} :
    (x >>= f) = .error failure ↔
      x = .error failure ∨ ∃ b, x = .ok b ∧ f b = .error failure := by
  cases x with
  | ok b =>
    constructor
    · intro h
      exact .inr ⟨b, rfl, h⟩
    · rintro (h | ⟨b', hb, h⟩)
      · cases h
      · cases hb
        exact h
  | error e =>
    constructor
    · intro h
      cases h
      exact .inl rfl
    · rintro (h | ⟨b, hb, -⟩)
      · cases h
        rfl
      · cases hb

theorem map_eq_error {ε β γ : Type} {x : Except ε β} {f : β → γ} {failure : ε} :
    (f <$> x) = .error failure ↔ x = .error failure := by
  rw [map_eq_pure_bind, bind_eq_error]
  constructor
  · rintro (h | ⟨b, -, h⟩)
    · exact h
    · cases h
  · exact .inl

theorem mapError_eq_error {ε ε' β : Type} {f : ε → ε'} {x : Except ε β} {failure : ε'} :
    x.mapError f = .error failure ↔ ∃ e, x = .error e ∧ f e = failure := by
  cases x with
  | ok b => exact iff_of_false (by rintro ⟨⟩) (by rintro ⟨e, ⟨⟩, -⟩)
  | error e =>
    constructor
    · intro h
      cases h
      exact ⟨e, rfl, rfl⟩
    · rintro ⟨e', he, rfl⟩
      cases he
      rfl

/-- The causes for which an expression that is read has no term. -/
inductive Cause.OfTerm (most : Nat) : Cause → Prop
  | tooDeep : OfTerm most (.expressionTooDeep most)
  | variableExponent (name : String) : OfTerm most (.variableExponent name)
  | exponentNotFinite : OfTerm most .exponentNotFinite

namespace Expr

section

variable {α : Type} {most depth : Nat} {e : Expr α} {fault : Fault}

/-- The fault is one for which an expression has no term, and shows at a part of the expression. -/
def FaultOfTerm (most : Nat) (e : Expr α) (fault : Fault) : Prop :=
  fault.cause.OfTerm most ∧ ∃ n ∈ e.nodes, fault.spans = [n.span]

theorem FaultOfTerm.at_root {cause : Cause} (h : cause.OfTerm most) :
    e.FaultOfTerm most (.soft cause e.span) :=
  ⟨h, e, e.mem_nodes_self, rfl⟩

/-- A fault of a part is one of the whole. -/
theorem FaultOfTerm.of_part {part : Expr α} (h : part.FaultOfTerm most fault)
    (hpart : part.nodes ⊆ e.nodes) : e.FaultOfTerm most fault := by
  obtain ⟨hcause, n, hn, hspans⟩ := h
  exact ⟨hcause, n, hpart hn, hspans⟩

theorem faultOfTerm_checkDepth (h : checkDepth most depth e = .error fault) :
    e.FaultOfTerm most fault := by
  unfold checkDepth at h
  split at h
  · cases h
    exact .at_root .tooDeep
  · cases h

variable [Scalar α]

theorem faultOfTerm_constant (h : e.constant most depth = .error fault) :
    e.FaultOfTerm most fault := by
  induction e generalizing depth with
  | number value s =>
    rcases bind_eq_error.1 h with h | ⟨_, -, h⟩
    · exact faultOfTerm_checkDepth h
    · cases h
  | symbol name s =>
    rcases bind_eq_error.1 h with h | ⟨_, -, h⟩
    · exact faultOfTerm_checkDepth h
    · cases h
      exact .at_root (.variableExponent name)
  | paren inner s ih =>
    rcases bind_eq_error.1 h with h | ⟨_, -, h⟩
    · exact faultOfTerm_checkDepth h
    · exact (ih h).of_part (List.subset_cons_self _ _)
  | call func name nameSpan arg parens ih | negation sign operand s ih =>
    rcases bind_eq_error.1 h with h | ⟨_, -, h⟩
    · exact faultOfTerm_checkDepth h
    · exact (ih (map_eq_error.1 h)).of_part (List.subset_cons_self _ _)
  | binary op left right s ihl ihr =>
    rcases bind_eq_error.1 h with h | ⟨_, -, h⟩
    · exact faultOfTerm_checkDepth h
    rcases bind_eq_error.1 h with h | ⟨x, -, h⟩
    · exact (ihl h).of_part (left_nodes_subset op left right s)
    rcases bind_eq_error.1 h with h | ⟨y, -, h⟩
    · exact (ihr h).of_part (right_nodes_subset op left right s)
    · cases h

theorem faultOfTerm_exponent (h : e.exponent most depth = .error fault) :
    e.FaultOfTerm most fault := by
  rcases bind_eq_error.1 h with h | ⟨v, -, h⟩
  · exact faultOfTerm_constant h
  · split at h
    · cases h
    · cases h
      exact .at_root .exponentNotFinite

theorem faultOfTerm_term (h : e.term most depth = .error fault) : e.FaultOfTerm most fault := by
  induction e generalizing depth with
  | number value s | symbol name s =>
    rcases bind_eq_error.1 h with h | ⟨_, -, h⟩
    · exact faultOfTerm_checkDepth h
    · cases h
  | paren inner s ih =>
    rcases bind_eq_error.1 h with h | ⟨_, -, h⟩
    · exact faultOfTerm_checkDepth h
    · exact (ih h).of_part (List.subset_cons_self _ _)
  | call func name nameSpan arg parens ih | negation sign operand s ih =>
    rcases bind_eq_error.1 h with h | ⟨_, -, h⟩
    · exact faultOfTerm_checkDepth h
    · exact (ih (map_eq_error.1 h)).of_part (List.subset_cons_self _ _)
  | binary op left right s ihl ihr =>
    rcases bind_eq_error.1 h with h | ⟨_, -, h⟩
    · exact faultOfTerm_checkDepth h
    rcases bind_eq_error.1 h with h | ⟨l, -, h⟩
    · exact (ihl h).of_part (left_nodes_subset op left right s)
    split at h
    · exact (ihr (map_eq_error.1 h)).of_part (right_nodes_subset op left right s)
    · exact (faultOfTerm_exponent (map_eq_error.1 h)).of_part (right_nodes_subset op left right s)

theorem ofTerm_term (h : e.term most depth = .error fault) : fault.cause.OfTerm most :=
  (faultOfTerm_term h).1

variable [Numeral α]

/-- A text is reported as empty only if it is, and the reader's own fault is never reported. -/
theorem cause_of_ofText {text : String} (h : ofText (α := α) text = .error fault) :
    fault.cause ≠ .mismatch ∧ (fault.cause = .emptyExpression → meaningful text = []) := by
  obtain ⟨place, span, hplace, -, -, hshows⟩ := pointed_of_ofText h
  constructor
  · intro hcause
    rw [hcause] at hshows
    cases hshows
  · intro hcause
    rw [hcause] at hshows
    cases hshows
    exact hplace.symm

end

end Expr

namespace Derivation

variable (α : Type) [Scalar α] [Numeral α]

/-- The text is not read as an expression, or the expression has no term. -/
def Unreadable (options : Options) (text : String) (fault : Fault) : Prop :=
  Expr.ofText (α := α) text = .error fault ∨
    ∃ e : Expr α, Expr.ofText text = .ok e ∧ Term.ofExpr options.maxDepth e = .error fault

/-- Where a division by zero shows: at the zero that is found in the expression, or nowhere. -/
def DividesAt (text : String) (spans : List Span) : Prop :=
  spans = [] ∨ ∃ (e : Expr α) (zero : Span), Expr.ofText text = .ok e ∧
    e.zeroDivisor? = some zero ∧ spans = [zero]

variable {α} {options : Options} {text var : String} {fault : Fault} {failure : Failure}

/-- A term is not read if the text is unreadable, and otherwise only if it divides by zero. -/
theorem readTerm_eq_error (h : readTerm (α := α) options text = .error failure) :
    (∃ fault, Unreadable α options text fault ∧ failure = .unreadable fault) ∨
      ∃ spans, DividesAt α text spans ∧ failure = .underivable .divisionByZero spans := by
  rcases bind_eq_error.1 h with h | ⟨e, he, h⟩
  · obtain ⟨fault, hfault, rfl⟩ := mapError_eq_error.1 h
    exact .inl ⟨fault, .inl hfault, rfl⟩
  rw [mapError_eq_ok] at he
  rcases bind_eq_error.1 h with h | ⟨t, -, h⟩
  · obtain ⟨fault, hfault, rfl⟩ := mapError_eq_error.1 h
    exact .inl ⟨fault, .inr ⟨e, he, hfault⟩, rfl⟩
  split at h
  · next zero hzero =>
    cases h
    exact .inr ⟨_, .inr ⟨e, zero, he, hzero, rfl⟩, rfl⟩
  · split at h
    · cases h
      exact .inr ⟨_, .inl rfl, rfl⟩
    · cases h

theorem readTerm_of_unreadable (h : Unreadable α options text fault) :
    readTerm (α := α) options text = .error (.unreadable fault) := by
  rcases h with h | ⟨e, he, h⟩
  · exact bind_eq_error.2 (.inl (mapError_eq_error.2 ⟨fault, h, rfl⟩))
  · refine bind_eq_error.2 (.inr ⟨e, mapError_eq_ok.2 he, ?_⟩)
    exact bind_eq_error.2 (.inl (mapError_eq_error.2 ⟨fault, h, rfl⟩))

omit [Numeral α] in
/-- Derivatives are not taken if one of them divides by zero or is too large. -/
theorem take_eq_error {t : Term α} {order count : Nat}
    (h : take options var t order count = .error failure) :
    failure = .underivable .divisionByZero [] ∨ ∃ k, order ≤ k ∧ k < order + count ∧
      failure = .underivable (.resultTooLarge k options.maxNodes) [] := by
  induction count generalizing t order with
  | zero => cases h
  | succ count ih =>
    rw [take] at h
    split at h
    · cases h
      exact .inl rfl
    split at h
    · cases h
      exact .inr ⟨order, Nat.le_refl _, by omega, rfl⟩
    rcases bind_eq_error.1 h with h | ⟨rest, -, h⟩
    · rcases ih h with h | ⟨k, hle, hlt, h⟩
      · exact .inl h
      · exact .inr ⟨k, by omega, by omega, h⟩
    · cases h

/-- A cause that may be reported for an expression that is not blank: it is neither that the
expression is empty, nor the reader's own fault. -/
theorem reportable_of_unreadable (hblank : ¬ Text.Blank text.toList)
    (h : Unreadable α options text fault) :
    fault.cause ≠ .emptyExpression ∧ fault.cause ≠ .mismatch := by
  rcases h with h | ⟨e, -, h⟩
  · obtain ⟨hmismatch, hempty⟩ := Expr.cause_of_ofText h
    exact ⟨fun hcause => hblank (Expr.blank_of_meaningful (hempty hcause)), hmismatch⟩
  · have hcause := Expr.ofTerm_term h
    constructor
    · intro heq
      rw [heq] at hcause
      cases hcause
    · intro heq
      rw [heq] at hcause
      cases hcause

/-- The failures of a request: a check that fails, an expression that is unreadable though all
checks hold, a division by zero, or a derivative that is too large. -/
inductive FailsWith (α : Type) [Scalar α] [Numeral α] (request : Request) (options : Options) :
    Failure → Prop
  | invalid {cause : Cause} (hfirst : FirstFailing (request.checks options) cause) :
      FailsWith α request options (.invalid cause)
  | unreadable {fault : Fault} (hall : ∀ check ∈ request.checks options, check.1)
      (hread : Unreadable α options request.expression fault) :
      FailsWith α request options (.unreadable fault)
  | divisionByZero (spans : List Span) (hspans : DividesAt α request.expression spans) :
      FailsWith α request options (.underivable .divisionByZero spans)
  | resultTooLarge {k : Nat} (hk : 1 ≤ k) (horder : (k : Int) ≤ request.order) :
      FailsWith α request options (.underivable (.resultTooLarge k options.maxNodes) [])

variable {request : Request}

theorem failsWith_of_compute (h : compute (α := α) request options = .error failure) :
    FailsWith α request options failure := by
  rcases bind_eq_error.1 h with h | ⟨⟨var, order⟩, hvalid, h⟩
  · obtain ⟨cause, hfirst, rfl⟩ := Request.validate_eq_error_iff.1 h
    exact .invalid hfirst
  rcases bind_eq_error.1 h with h | ⟨t, -, h⟩
  · rcases readTerm_eq_error h with ⟨fault, hread, rfl⟩ | ⟨spans, hspans, rfl⟩
    · exact .unreadable (Request.validate_eq_ok_iff.1 hvalid).1 hread
    · exact .divisionByZero spans hspans
  rcases bind_eq_error.1 h with h | ⟨orders, -, h⟩
  · obtain ⟨-, horder, -⟩ := validate_spec hvalid
    rcases take_eq_error h with rfl | ⟨k, hle, hlt, rfl⟩
    · exact .divisionByZero [] (.inl rfl)
    · exact .resultTooLarge hle (by omega)
  · cases h

theorem compute_of_firstFailing {cause : Cause}
    (h : FirstFailing (request.checks options) cause) :
    compute (α := α) request options = .error (.invalid cause) :=
  bind_eq_error.2 (.inl (Request.validate_eq_error_iff.2 ⟨cause, h, rfl⟩))

theorem compute_of_unreadable (hall : ∀ check ∈ request.checks options, check.1)
    (h : Unreadable α options request.expression fault) :
    compute (α := α) request options = .error (.unreadable fault) := by
  refine bind_eq_error.2 (.inr ⟨_, Request.validate_eq_ok_iff.2 ⟨hall, rfl⟩, ?_⟩)
  exact bind_eq_error.2 (.inl (readTerm_of_unreadable h))

/-- No failure says that the expression is empty, or is a fault of the reader itself. -/
theorem FailsWith.reportable (h : FailsWith α request options failure) :
    failure.fault.cause ≠ .emptyExpression ∧ failure.fault.cause ≠ .mismatch := by
  cases h with
  | invalid hfirst => exact Request.reportable_of_firstFailing hfirst
  | unreadable hall hread => exact reportable_of_unreadable (hall _ List.mem_cons_self) hread
  | divisionByZero spans => exact ⟨by rintro ⟨⟩, by rintro ⟨⟩⟩
  | resultTooLarge hk horder => exact ⟨by rintro ⟨⟩, by rintro ⟨⟩⟩

/-- Which failure is reported is decided by the first check that fails. If a check of the request
fails, it is the cause of the first such check, whatever the expression is like. If all of them
hold, it is the fault of reading the expression or of making a term of it, if there is one; neither
of these is ever that the expression is empty, or a fault of the reader itself. Otherwise
derivatives are taken, and only a division by zero or a derivative that is too large, of an order up
to the one that is asked for, can be reported. -/
theorem compute_first_failure (request : Request) (options : Options) :
    (∀ fault, compute (α := α) request options = .error ⟨.validation, fault⟩ ↔
      ∃ cause, FirstFailing (request.checks options) cause ∧ fault = .ofRequest cause) ∧
    (∀ fault, compute (α := α) request options = .error ⟨.reading, fault⟩ ↔
      (∀ check ∈ request.checks options, check.1) ∧
        Unreadable α options request.expression fault) ∧
    (∀ failure, compute (α := α) request options = .error failure →
      failure.fault.cause ≠ .emptyExpression ∧ failure.fault.cause ≠ .mismatch) ∧
    ∀ fault, compute (α := α) request options = .error ⟨.differentiation, fault⟩ →
      fault.cause = .divisionByZero ∨ ∃ k : Nat, 1 ≤ k ∧ (k : Int) ≤ request.order ∧
        fault.cause = .resultTooLarge k options.maxNodes := by
  refine ⟨?_, ?_, fun _ h => (failsWith_of_compute h).reportable, ?_⟩
  · intro fault
    constructor
    · intro h
      cases failsWith_of_compute h with
      | invalid hfirst => exact ⟨_, hfirst, rfl⟩
    · rintro ⟨cause, hfirst, rfl⟩
      exact compute_of_firstFailing hfirst
  · intro fault
    constructor
    · intro h
      cases failsWith_of_compute h with
      | unreadable hall hread => exact ⟨hall, hread⟩
    · rintro ⟨hall, hread⟩
      exact compute_of_unreadable hall hread
  · intro fault h
    cases failsWith_of_compute h with
    | divisionByZero spans => exact .inl rfl
    | resultTooLarge hk horder => exact .inr ⟨_, hk, horder, rfl⟩

/-- The name of a function is refused as a variable before the order is looked at and the
parenthesis is missed. It is missed as soon as all checks hold. -/
theorem compute_first_failure_function :
    compute (α := Float) ⟨"(", " Sin ", 0⟩ {} = .error (.invalid (.invalidVariable "Sin")) ∧
      compute (α := Float) ⟨"(", " x ", 1⟩ {} =
        .error (.unreadable (.hard .unexpectedEnd ⟨1, 1⟩)) := by
  constructor
  · have hvar : Request.trimmedVariable ⟨"(", " Sin ", 0⟩ = "Sin" := by decide +kernel
    have hname := isVariable_eq_true_iff.not.1 (by decide +kernel : ¬ isVariable "Sin" = true)
    refine ((compute_first_failure ⟨"(", " Sin ", 0⟩ {}).1 _).2 ⟨.invalidVariable "Sin", ?_, rfl⟩
    simp only [Request.checks, firstFailing_cons, hvar]
    exact .inr ⟨by decide +kernel, .inr ⟨by decide +kernel, .inl ⟨hname, trivial⟩⟩⟩
  · have hvar : Request.trimmedVariable ⟨"(", " x ", 1⟩ = "x" := by decide +kernel
    have hname := isVariable_eq_true_iff.1 (by decide +kernel : isVariable "x" = true)
    have hread : Expr.ofText (α := Float) "(" = .error (.hard .unexpectedEnd ⟨1, 1⟩) := by cbv
    refine ((compute_first_failure ⟨"(", " x ", 1⟩ {}).2.1 _).2 ⟨?_, .inl hread⟩
    simp only [Request.checks, List.forall_mem_cons, hvar]
    exact ⟨by decide +kernel, by decide +kernel, hname, by decide, by decide, by simp⟩

end Derivation

end Fluxion
