import Fluxion.Proofs.Expr.Grammar
import Fluxion.Proofs.Term.AsRead

/-!
# The term of an expression

An expression becomes a copy of a term, unless it is nested too deeply for the depth that is allowed.
There is one rule for each kind of node. It stands for all terms of the same value.
-/

namespace Fluxion.Expr

variable {α : Type} [Scalar α]

open Term (SameValue)

/-- With finite numbers only, and with enough depth, the expression becomes a copy of `t`. -/
def Becomes (e : Expr α) (t : Term α) : Prop :=
  e.Proper ∧ ∃ s height, s.Copies t ∧ ∀ most depth, height + depth ≤ most →
    e.term most depth = .ok s

/-- With finite numbers only, and with enough depth, the expression becomes a term with the value of
`t`. -/
def StandsFor (e : Expr α) (t : Term α) : Prop :=
  e.Proper ∧ ∃ s height, SameValue s t ∧ ∀ most depth, height + depth ≤ most →
    e.term most depth = .ok s

/-- With finite numbers only, and with enough depth, the expression is the exponent `v`. -/
def IsExponent (e : Expr α) (v : α) : Prop :=
  e.Proper ∧ ∃ w height, (w == v) = true ∧ ∀ most depth, height + depth ≤ most →
    e.exponent most depth = .ok w

omit [Scalar α] in
theorem checkDepth_of_le {most depth : Nat} (h : depth ≤ most) (e : Expr α) :
    checkDepth most depth e = .ok () := by
  rw [checkDepth, if_neg (Nat.not_lt.2 h)]
  rfl

/-- What a node becomes where it does not stand too deep. -/
theorem term_of_le {most depth : Nat} (h : depth ≤ most) (e : Expr α) :
    e.term most depth = (match e with
      | number value _ => .ok (.const value)
      | symbol name _ => .ok (.symbol name)
      | paren inner _ => inner.term most depth
      | call func _ _ arg _ => .call func <$> arg.term most (depth + 1)
      | negation _ operand _ => negate <$> operand.term most (depth + 1)
      | binary op left right _ => left.term most (depth + 1) >>= fun l =>
        match node op.op with
        | some make => make l <$> right.term most (depth + 1)
        | none => .power l <$> right.exponent most (depth + 1)) := by
  cases e <;> rw [term, checkDepth_of_le h] <;> rfl

/-- What is worked out of a node where it does not stand too deep. -/
theorem constant_of_le {most depth : Nat} (h : depth ≤ most) (e : Expr α) :
    e.constant most depth = (match e with
      | number value _ => .ok value
      | symbol name span => .error (.soft (.variableExponent name) span)
      | paren inner _ => inner.constant most depth
      | call func _ _ arg _ => Scalar.apply func <$> arg.constant most (depth + 1)
      | negation _ operand _ => (- ·) <$> operand.constant most (depth + 1)
      | binary op left right _ => left.constant most (depth + 1) >>= fun x =>
        right.constant most (depth + 1) >>= fun y => .ok (calculate op.op x y)) := by
  cases e <;> rw [constant, checkDepth_of_le h] <;> rfl

/-- The operands of an operator other than a power become the operands of its node. -/
theorem term_binary {most depth : Nat} (h : depth ≤ most) {op : Operator} {left right : Expr α}
    {make : Term α → Term α → Term α} {l : Term α} {span : Span} (hop : node op.op = some make)
    (hl : left.term most (depth + 1) = .ok l) :
    (binary op left right span).term most depth = make l <$> right.term most (depth + 1) := by
  simp only [term_of_le h, hl, hop]
  rfl

namespace Becomes

variable {e left right : Expr α} {t u a b : Term α}

theorem standsFor [SignedScalar α] (h : Becomes e t) (htu : SameValue t u) : StandsFor e u := by
  obtain ⟨hproper, s, height, hs, hterm⟩ := h
  exact ⟨hproper, s, height, hs.sameValue.trans htu, hterm⟩

theorem number {v w : α} (hv : Scalar.isFinite v = true) (heq : (v == w) = true) (span : Span) :
    Becomes (.number v span) (.const w) := by
  refine ⟨hv, .const v, 0, .const heq, ?_⟩
  intro most depth hle
  rw [term_of_le (by omega)]

theorem symbol (name : String) (span : Span) :
    Becomes (.symbol name span : Expr α) (.symbol name) := by
  refine ⟨trivial, .symbol name, 0, .symbol name, ?_⟩
  intro most depth hle
  rw [term_of_le (by omega)]

theorem paren (h : Becomes e t) (span : Span) : Becomes (.paren e span) t := by
  obtain ⟨hproper, s, height, hs, hterm⟩ := h
  refine ⟨hproper, s, height, hs, ?_⟩
  intro most depth hle
  rw [term_of_le (by omega)]
  exact hterm most depth hle

theorem call (h : Becomes e t) (f : Func) (name : String) (nameSpan parens : Span) :
    Becomes (.call f name nameSpan e parens) (.call f t) := by
  obtain ⟨hproper, s, height, hs, hterm⟩ := h
  refine ⟨hproper, .call f s, height + 1, hs.call f, ?_⟩
  intro most depth hle
  rw [term_of_le (by omega)]
  have harg := hterm most (depth + 1) (by omega)
  change Term.call f <$> e.term most (depth + 1) = _
  rw [harg]
  rfl

/-- A sign is a factor of minus one, or becomes part of a number. -/
theorem negation (h : Becomes e t) (sign span : Span) :
    Becomes (.negation sign e span) (negate t) := by
  obtain ⟨hproper, s, height, hs, hterm⟩ := h
  refine ⟨hproper, negate s, height + 1, hs.negate, ?_⟩
  intro most depth hle
  rw [term_of_le (by omega)]
  have hoperand := hterm most (depth + 1) (by omega)
  change negate <$> e.term most (depth + 1) = _
  rw [hoperand]
  rfl

/-- The sign of a number is taken into it. -/
theorem negative {v w : α} (hw : Scalar.isFinite w = true) (heq : (-w == v) = true)
    (sign span span' : Span) :
    Becomes (.negation sign (.number w span) span') (.const v) := by
  refine ⟨hw, .const (-w), 1, .const heq, ?_⟩
  intro most depth hle
  rw [term_of_le (by omega)]
  dsimp only
  rw [term_of_le (by omega)]
  rfl

/-- The two operands of an operator other than a power become the operands of the node. -/
theorem join {j : Joiner} {make : Term α → Term α → Term α} (hl : Becomes left a)
    (hr : Becomes right b) (hj : node j.op = some make)
    (hmake : ∀ s s', s.Copies a → s'.Copies b → (make s s').Copies (make a b))
    (written : Span) : Becomes (Expr.join j written left right) (make a b) := by
  obtain ⟨hlproper, s, height, hs, hterm⟩ := hl
  obtain ⟨hrproper, s', height', hs', hterm'⟩ := hr
  refine ⟨⟨hlproper, hrproper⟩, make s s', max height height' + 1, hmake s s' hs hs', ?_⟩
  intro most depth hle
  have hleft := hterm most (depth + 1) (by omega)
  have hright := hterm' most (depth + 1) (by omega)
  cases j with
  | written op =>
    rw [Expr.join, term_binary (by omega) hj hleft, hright]
    rfl
  | juxtaposed =>
    rw [Expr.join, term_binary (by omega) hj hleft, hright]
    rfl

theorem power {v : α} (hl : Becomes left a) (hr : IsExponent right v) (written : Span) :
    Becomes (Expr.join (.written .power) written left right) (.power a v) := by
  obtain ⟨hlproper, s, height, hs, hterm⟩ := hl
  obtain ⟨hrproper, w, height', hw, hexponent⟩ := hr
  refine ⟨⟨hlproper, hrproper⟩, .power s w, max height height' + 1, hs.power hw, ?_⟩
  intro most depth hle
  have hleft := hterm most (depth + 1) (by omega)
  have hright := hexponent most (depth + 1) (by omega)
  rw [Expr.join, term_of_le (by omega)]
  change (left.term most (depth + 1) >>= _) = _
  rw [hleft]
  change (Term.power s <$> right.exponent most (depth + 1)) = _
  rw [hright]
  rfl

end Becomes

namespace IsExponent

theorem number {v w : α} (hw : Scalar.isFinite w = true) (heq : (w == v) = true) (span : Span) :
    IsExponent (.number w span) v := by
  refine ⟨hw, w, 0, heq, ?_⟩
  intro most depth hle
  rw [exponent, constant_of_le (by omega)]
  change (if Scalar.isFinite w = true then _ else _) = _
  rw [if_pos hw]
  rfl

/-- A negative exponent, with its sign in parentheses. -/
theorem negative [SignedScalar α] {v w : α} (hw : Scalar.isFinite w = true) (heq : (-w == v) = true)
    (sign span span' parens : Span) :
    IsExponent (.paren (.negation sign (.number w span) span') parens) v := by
  refine ⟨hw, -w, 1, heq, ?_⟩
  intro most depth hle
  have hneg : Scalar.isFinite (-w) = true := by rwa [SignedScalar.isFinite_neg]
  have hnumber : (Expr.number w span).constant most (depth + 1) = .ok w :=
    constant_of_le (by omega) _
  rw [exponent, constant_of_le (by omega)]
  dsimp only
  rw [constant_of_le (by omega)]
  dsimp only
  rw [hnumber]
  change (if Scalar.isFinite (-w) = true then _ else _) = _
  rw [if_pos hneg]
  rfl

end IsExponent

end Fluxion.Expr
