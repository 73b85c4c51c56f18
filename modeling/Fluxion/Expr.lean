import Fluxion.Func
import Fluxion.Operator

/-!
# Syntax trees

An expression as it is written: every node knows where it stands, and parentheses are nodes of their
own.
-/

namespace Fluxion

/-- An expression with numbers of type `α`. -/
inductive Expr (α : Type) where
  | number (value : α) (span : Span)
  | symbol (name : String) (span : Span)
  /-- An expression in parentheses; the span includes them. -/
  | paren (inner : Expr α) (span : Span)
  /-- A function with its argument in parentheses. The name is the one that is written. -/
  | call (func : Func) (name : String) (nameSpan : Span) (arg : Expr α) (parens : Span)
  /-- An operand with a sign in front of it. -/
  | negation (sign : Span) (operand : Expr α) (span : Span)
  | binary (op : Operator) (left right : Expr α) (span : Span)
  deriving DecidableEq, Repr, Inhabited

namespace Expr

variable {α : Type}

/-- Where the expression stands. -/
def span : Expr α → Span
  | number _ s => s
  | symbol _ s => s
  | paren _ s => s
  | call _ _ nameSpan _ parens => nameSpan.cover parens
  | negation _ _ s => s
  | binary _ _ _ s => s

/-- Two expressions joined by an operator. The gap between them is the place of an operator that is
not written. -/
def join (joiner : Joiner) (written : Span) (left right : Expr α) : Expr α :=
  let op : Operator :=
    match joiner with
    | .written op => ⟨op, false, written⟩
    | .juxtaposed => ⟨.times, true, left.span.gap right.span⟩
  binary op left right (left.span.cover right.span)

/-- The expression inside any number of parentheses. -/
def innermost : Expr α → Expr α
  | paren inner _ => innermost inner
  | e => e

/-- The two places of a call outside of its argument: the name with the opening parenthesis, and the
closing parenthesis. -/
def callDelimiters (nameSpan parens : Span) : List Span :=
  [⟨nameSpan.start, parens.start + 1⟩, ⟨parens.stop - 1, parens.stop⟩]

end Expr

end Fluxion
