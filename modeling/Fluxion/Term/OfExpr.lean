import Fluxion.Expr
import Fluxion.Fault
import Fluxion.Term

/-!
# From expressions to terms

An expression becomes a term by dropping its layout. The sign of a number becomes part of the
number, and any other sign a product with minus one. Exponents have to be constant, and are worked
out on the way. Expressions that are nested deeper than a limit are refused; parentheses do not
count.
-/

namespace Fluxion

namespace Expr

variable {α : Type} [Scalar α]

/-- Refuses an expression that stands deeper than `most`. -/
def checkDepth (most depth : Nat) (e : Expr α) : Except Fault Unit :=
  if most < depth then
    throw (.soft (.expressionTooDeep most) e.span)
  else
    pure ()

/-- What an operator makes of two numbers. -/
def calculate : BinaryOp → α → α → α
  | .plus, x, y => x + y
  | .minus, x, y => x - y
  | .times, x, y => x * y
  | .divide, x, y => x / y
  | .power, x, y => Scalar.pow x y

/-- The value of an expression without symbols that stands at a depth. -/
def constant (most depth : Nat) (e : Expr α) : Except Fault α := do
  checkDepth most depth e
  match e with
  | number value _ => pure value
  | symbol name span => throw (.soft (.variableExponent name) span)
  | paren inner _ => constant most depth inner
  | call func _ _ arg _ => Scalar.apply func <$> constant most (depth + 1) arg
  | negation _ operand _ => (- ·) <$> constant most (depth + 1) operand
  | binary op left right _ => do
    let x ← constant most (depth + 1) left
    let y ← constant most (depth + 1) right
    pure (calculate op.op x y)

/-- The value of an exponent, which has to be a proper number. -/
def exponent (most depth : Nat) (e : Expr α) : Except Fault α := do
  let value ← constant most depth e
  if Scalar.isFinite value then
    pure value
  else
    throw (.soft .exponentNotFinite e.span)

/-- The node that an operator between two terms becomes; powers have their own. -/
def node : BinaryOp → Option (Term α → Term α → Term α)
  | .plus => some .sum
  | .minus => some .difference
  | .times => some .product
  | .divide => some .quotient
  | .power => none

/-- The term with the opposite value. -/
def negate : Term α → Term α
  | .const value => .const (-value)
  | t => .product (.const (-1)) t

/-- The term of an expression that stands at a depth. -/
def term (most depth : Nat) (e : Expr α) : Except Fault (Term α) := do
  checkDepth most depth e
  match e with
  | number value _ => pure (.const value)
  | symbol name _ => pure (.symbol name)
  | paren inner _ => term most depth inner
  | call func _ _ arg _ => .call func <$> term most (depth + 1) arg
  | negation _ operand _ => negate <$> term most (depth + 1) operand
  | binary op left right _ => do
    let l ← term most (depth + 1) left
    match node op.op with
    | some join => join l <$> term most (depth + 1) right
    | none => .power l <$> exponent most (depth + 1) right

/-- Whether the expression is the number zero. -/
def isZero : Expr α → Bool
  | number value _ => value == 0
  | _ => false

/-- Where the first division by a written zero has its divisor. -/
def zeroDivisor? : Expr α → Option Span
  | number _ _ | symbol _ _ => none
  | paren inner _ => zeroDivisor? inner
  | call _ _ _ arg _ => zeroDivisor? arg
  | negation _ operand _ => zeroDivisor? operand
  | binary op left right _ =>
    if op.op == .divide && right.innermost.isZero then
      some right.innermost.span
    else
      (zeroDivisor? left).or (zeroDivisor? right)

end Expr

/-- The term of an expression, if the expression is nested at most `most` deep. -/
def Term.ofExpr {α : Type} [Scalar α] (most : Nat) (e : Expr α) : Except Fault (Term α) :=
  e.term most 1

end Fluxion
