import Fluxion.Expr

/-!
# Levels of an expression

How many levels of nesting are entered to read an expression can be told from its tree. An operand
enters one level for a sign, one for a pair of parentheses, and two for a call. The operands of a
chain are read one after another at the same level; only a right operand that is itself joined by
operators is extended one level further in. How long a chain is does not matter.
-/

namespace Fluxion.Expr

variable {α : Type}

/-- Whether the expression is joined by an operator, and not a single operand. -/
def isJoined : Expr α → Bool
  | binary _ _ _ _ => true
  | _ => false

/-- The operand that the expression starts with. -/
def leftmost : Expr α → Expr α
  | binary _ left _ _ => left.leftmost
  | e => e

mutual

/-- The levels that are entered to read the operand that the expression starts with. -/
def lead : Expr α → Nat
  | number _ _ | symbol _ _ => 0
  | paren inner _ => 1 + max inner.lead inner.extent
  | call _ _ _ arg _ => 1 + (1 + max arg.lead arg.extent)
  | negation _ operand _ => 1 + max operand.lead operand.extent
  | binary _ left _ _ => left.lead

/-- The levels that are entered to extend that operand to the whole expression. -/
def extent : Expr α → Nat
  | binary _ left right _ =>
    max left.extent (max right.lead (if right.isJoined then 1 + right.extent else 0))
  | _ => 0

end

/-- The levels that are entered to extend the first operand where an operator stands before it. -/
def raised (e : Expr α) : Nat := if e.isJoined then 1 + e.extent else 0

/-- The levels that are entered to read the expression after an operator. -/
def afterOperator (e : Expr α) : Nat := max e.lead e.raised

/-- The levels that are entered to read the expression, besides the one that it is read at. -/
def body (e : Expr α) : Nat := max e.lead e.extent

/-- The levels that are entered to read the expression. -/
def need (e : Expr α) : Nat := 1 + e.body

theorem lead_paren (inner : Expr α) (span : Span) : (paren inner span).lead = inner.need := rfl

theorem lead_call (func : Func) (name : String) (nameSpan : Span) (arg : Expr α) (parens : Span) :
    (call func name nameSpan arg parens).lead = 1 + arg.need := rfl

theorem lead_negation (sign : Span) (operand : Expr α) (span : Span) :
    (negation sign operand span).lead = 1 + operand.body := rfl

/-- The first operand of the whole is the first operand of its left side. -/
theorem lead_leftmost (e : Expr α) : e.leftmost.lead = e.lead := by
  fun_induction leftmost e with
  | case1 op left right span ih => exact ih
  | case2 => rfl

theorem extent_binary (op : Operator) (left right : Expr α) (span : Span) :
    (binary op left right span).extent = max left.extent right.afterOperator := rfl

theorem extent_of_not_isJoined {e : Expr α} (h : e.isJoined = false) : e.extent = 0 := by
  cases e with
  | binary op left right span => cases h
  | number _ _ | symbol _ _ | paren _ _ | call _ _ _ _ _ | negation _ _ _ => rfl

theorem raised_of_not_isJoined {e : Expr α} (h : e.isJoined = false) : e.raised = 0 := by
  rw [raised, h]
  rfl

theorem raised_of_isJoined {e : Expr α} (h : e.isJoined = true) : e.raised = 1 + e.extent := by
  rw [raised, if_pos h]

/-- One level is entered before an operand is extended, if it is at all. -/
theorem extent_le_of_raised_le {e : Expr α} {room : Nat} (h : e.raised ≤ room + 1) :
    e.extent ≤ room := by
  cases he : e.isJoined with
  | true =>
    rw [raised_of_isJoined he] at h
    omega
  | false =>
    rw [extent_of_not_isJoined he]
    exact Nat.zero_le room

theorem body_le_afterOperator (e : Expr α) : e.body ≤ e.afterOperator := by
  unfold body afterOperator raised
  cases he : e.isJoined with
  | true =>
    rw [if_pos rfl]
    omega
  | false =>
    rw [extent_of_not_isJoined he]
    omega

/-- What a chain of operators makes of its first operand: the first operand stays, and the levels that
extend it only grow. -/
structure Extends (first e : Expr α) : Prop where
  isJoined : e.isJoined = true
  lead_eq : e.lead = first.lead
  extent_le : first.extent ≤ e.extent

theorem Extends.trans {first left e : Expr α} (h : Extends first left) (h' : Extends left e) :
    Extends first e :=
  ⟨h'.isJoined, h'.lead_eq.trans h.lead_eq, Nat.le_trans h.extent_le h'.extent_le⟩

theorem extends_join (joiner : Joiner) (written : Span) (left right : Expr α) :
    Extends left (join joiner written left right) :=
  ⟨rfl, rfl, Nat.le_max_left _ _⟩

theorem Extends.raised_le {first e : Expr α} (h : Extends first e) : first.raised ≤ e.raised := by
  have hle := h.extent_le
  rw [raised_of_isJoined h.isJoined]
  cases hfirst : first.isJoined with
  | true =>
    rw [raised_of_isJoined hfirst]
    omega
  | false =>
    rw [raised_of_not_isJoined hfirst]
    omega

end Fluxion.Expr
