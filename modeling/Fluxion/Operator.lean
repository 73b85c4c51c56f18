import Fluxion.Token

/-!
# Operators

The operators between two operands and the sign in front of one, how tightly they bind, and how a
chain of operators that bind equally tightly is grouped.
-/

namespace Fluxion

/-- How tightly an operator binds, from loosest to tightest. `any` is below every operator. -/
inductive Precedence where
  | any
  | term
  | factor
  | sign
  | power
  deriving DecidableEq, Repr, Inhabited

namespace Precedence

/-- The place in the order of precedences. -/
def rank : Precedence → Nat
  | any => 0
  | term => 1
  | factor => 2
  | sign => 3
  | power => 4

instance : LT Precedence := ⟨fun p q => p.rank < q.rank⟩

instance : LE Precedence := ⟨fun p q => p.rank ≤ q.rank⟩

instance (p q : Precedence) : Decidable (p < q) := inferInstanceAs (Decidable (p.rank < q.rank))

instance (p q : Precedence) : Decidable (p ≤ q) := inferInstanceAs (Decidable (p.rank ≤ q.rank))

end Precedence

/-- How a chain of operators that bind equally tightly is grouped. -/
inductive Grouping where
  /-- `x - y - z` is `(x - y) - z`. -/
  | left
  /-- `x ^ y ^ z` is `x ^ (y ^ z)`. -/
  | right
  deriving DecidableEq, Repr

/-- An operator between two operands. -/
inductive BinaryOp where
  | power
  | times
  | divide
  | plus
  | minus
  deriving DecidableEq, Repr, Inhabited

namespace BinaryOp

/-- The operator that a token stands for between two operands. -/
def ofToken? : TokenKind → Option BinaryOp
  | .power => some power
  | .times => some times
  | .divide => some divide
  | .plus => some plus
  | .minus => some minus
  | _ => none

/-- The kinds of tokens that stand for an operator between two operands. -/
def tokens : List TokenKind := [.power, .times, .divide, .plus, .minus]

/-- How tightly the operator binds. A power binds more tightly than a sign: `-x^2` is `-(x^2)`. -/
def precedence : BinaryOp → Precedence
  | power => .power
  | times | divide => .factor
  | plus | minus => .term

/-- Only powers are grouped to the right. -/
def grouping : BinaryOp → Grouping
  | power => .right
  | _ => .left

/-- A token stands for an operator if and only if its kind is listed. -/
theorem ofToken?_isSome_iff (k : TokenKind) : (ofToken? k).isSome ↔ k ∈ tokens := by
  cases k <;> decide

end BinaryOp

/-- The sign in front of an operand. -/
inductive UnaryOp where
  | negate
  deriving DecidableEq, Repr, Inhabited

namespace UnaryOp

/-- The sign that a token stands for in front of an operand. -/
def ofToken? : TokenKind → Option UnaryOp
  | .minus => some negate
  | _ => none

/-- The kinds of tokens that stand for a sign. -/
def tokens : List TokenKind := [.minus]

/-- How tightly a sign binds. -/
def precedence : UnaryOp → Precedence
  | negate => .sign

/-- A sign applies to all that follows it and binds more tightly. -/
def grouping : UnaryOp → Grouping
  | negate => .right

end UnaryOp

/-- An operator and where it stands. -/
structure Operator where
  op : BinaryOp
  /-- Whether the operator is not written, as the multiplication in `2x`. -/
  implicit : Bool
  /-- The span of the written operator, or the gap between the operands. -/
  span : Span
  deriving DecidableEq, Repr, Inhabited

/-- What joins an operand to the next one. -/
inductive Joiner where
  /-- An operator. -/
  | written (op : BinaryOp)
  /-- Nothing, as in `2x` or `(x + 1)sin(x)`: the operands are multiplied. -/
  | juxtaposed
  deriving DecidableEq, Repr

namespace Joiner

/-- The operator that the joiner stands for. -/
def op : Joiner → BinaryOp
  | written op => op
  | juxtaposed => .times

/-- How tightly the joiner binds. -/
def precedence (j : Joiner) : Precedence := j.op.precedence

/-- Whether the joiner, met after an operator of precedence `p`, is applied before that operator. -/
def outranks (j : Joiner) (p : Precedence) : Bool :=
  p < j.precedence || (j.precedence == p && j.op.grouping == .right)

end Joiner

end Fluxion
