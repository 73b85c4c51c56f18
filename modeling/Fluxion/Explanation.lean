import Fluxion.Explanation.Line
import Fluxion.Term.Derivative
import Fluxion.Term.Text

/-!
# Explanations

How a derivative is taken: the rule for the whole term, then the rules for its operands, and so on
down to the parts whose derivatives are obvious. The explanation follows the term in the same way as
the derivative.
-/

namespace Fluxion

/-- What an explanation is written for: a variable, and a style of exponents. -/
structure Explainer where
  var : String
  style : ExponentStyle
  deriving Repr, Inhabited

namespace Explainer

variable {α : Type} [Scalar α] [Numeral α]

/-- States the derivative of a term. -/
def note (x : Explainer) (t : Term α) (depth : Nat) : Line α :=
  .note s!"d/d{x.var}({t.text x.style}) = {(t.derive x.var).text x.style}" depth

/-- States the rule for a term, and the derivative if it can be told in one line. -/
def ruleLines (x : Explainer) (t : Term α) (depth : Nat) : List (Line α) :=
  let rule := Rule.of x.var t
  .rule rule.name (rule.formula x.var) depth
    :: (if t.isMonomial then [x.note t depth] else [])

/-- Announces the explanation of an operand. -/
def header (x : Explainer) (name : Char) (t : Term α) (depth : Nat) : Line α :=
  .header name x.var t (t.text x.style) depth

/-- Names operands. -/
def operands (x : Explainer) (named : List (Char × Term α)) (depth : Nat) : Line α :=
  .operands x.var (named.map fun o => (o.1, o.2.text x.style)) depth

/-- The lines on two operands, given the explanations of both. -/
def both (x : Explainer) (l r : Term α) (depth : Nat) (left right : List (Line α)) :
    List (Line α) :=
  x.operands [('f', l), ('g', r)] depth :: .separately x.var depth
    :: x.header 'f' l (depth + 1) :: left ++ x.header 'g' r (depth + 1) :: right

/-- The lines on an inner function, given its explanation. -/
def inner (x : Explainer) (u : Term α) (depth : Nat) (lines : List (Line α)) : List (Line α) :=
  x.operands [('u', u)] depth :: x.header 'u' u (depth + 1) :: lines

/-- Explains the derivative of a term that lies at a depth. -/
def explain (x : Explainer) (t : Term α) (depth : Nat) : List (Line α) :=
  x.ruleLines t depth ++
    match t with
    | .sum l r | .difference l r | .product l r | .quotient l r =>
      x.both l r depth (x.explain l (depth + 1)) (x.explain r (depth + 1))
    | .power base _ =>
      if Rule.of x.var t == .generalPower then
        x.inner base depth (x.explain base (depth + 1))
      else
        []
    | .call _ arg => x.inner arg depth (x.explain arg (depth + 1))
    | .const _ | .symbol _ => []

/-- Explains how the derivative of an order is taken from the one before it. -/
def begin (x : Explainer) (order : Nat) (t : Term α) : List (Line α) :=
  (if 1 < order then [.separator] else [])
    ++ .computing order x.var :: .given (derivativeLabel x.var (order - 1)) (t.text x.style)
    :: x.explain t 0

/-- States the derivative of an order. -/
def finish (x : Explainer) (order : Nat) (t : Term α) : Line α :=
  .result order (derivativeLabel x.var order) (t.text x.style)

/-- Explains derivatives of successive orders, from `order` on, the first of which is taken from
`t`. -/
def all (x : Explainer) (order : Nat) (t : Term α) : List (Term α) → List (Line α)
  | [] => []
  | d :: rest => x.begin order t ++ x.finish order d :: x.all (order + 1) d rest

end Explainer

end Fluxion
