import Fluxion.Expr.Reading

/-!
# Parts of an expression

Not only whole expressions can be read on their own, but every part of them: operands, literals,
calls, signs, operators and single parentheses.
-/

namespace Fluxion

/-- The kinds of parts. -/
inductive NodeKind where
  | expr
  | operand
  | literal
  | number
  | symbol
  | call
  | paren
  | negation
  | sign
  | operator
  | opening
  | closing
  deriving DecidableEq, Repr, Inhabited

/-- A part of an expression. -/
inductive Node (α : Type) where
  | expr (e : Expr α)
  | sign (span : Span)
  | operator (op : Operator)
  | opening (span : Span)
  | closing (span : Span)
  deriving Repr, Inhabited

namespace Node

variable {α : Type} [Scalar α] [Numeral α]

/-- Reads a part of the given kind. -/
def read : NodeKind → Reader (Node α)
  | .expr => expr <$> Expr.readExpr Expr.outermost
  | .operand => expr <$> Expr.readOperand Expr.outermost
  | .literal => expr <$> Expr.readLiteral
  | .number => expr <$> Expr.readNumber
  | .symbol => expr <$> Expr.readSymbol
  | .call => expr <$> Expr.readCall Expr.outermost
  | .paren => expr <$> Expr.readParen Expr.outermost
  | .negation => expr <$> Expr.readNegation Expr.outermost
  | .sign => sign <$> Expr.readSign
  | .operator => operator <$> Expr.readOperator
  | .opening => (opening ·.span) <$> Reader.token .opening
  | .closing => (closing ·.span) <$> Reader.token .closing

/-- Reads an operand with its signs, and extends it by the operators after it that bind at least as
tightly as `least`. -/
def readClimbing (least : Precedence) : Reader (Node α) := do
  let first ← Expr.readSigned Expr.outermost
  expr <$> Expr.climb Expr.outermost first least

end Node

end Fluxion
