import Fluxion.Term

/-!
# Lines of an explanation

An explanation tells how a derivative is taken, line by line. Lines about a part of the term know
how deep this part lies: the term itself has depth zero, its operands have depth one, and so on.
-/

namespace Fluxion

/-- A number with its English ordinal ending. -/
def ordinal (n : Nat) : String :=
  let ending :=
    if 11 ≤ n % 100 ∧ n % 100 ≤ 13 then "th"
    else if n % 10 = 1 then "st"
    else if n % 10 = 2 then "nd"
    else if n % 10 = 3 then "rd"
    else "th"
  toString n ++ ending

/-- The name of a derivative of `f` at a variable. Up to the third, primes tell the order. -/
def derivativeLabel (var : String) (order : Nat) : String :=
  if order ≤ 3 then
    let primes := String.ofList (List.replicate order '\'')
    s!"f{primes}({var})"
  else
    s!"f^({order})({var})"

/-- A line of an explanation. -/
inductive Line (α : Type) where
  /-- Announces the derivative of an order. -/
  | computing (order : Nat) (var : String)
  /-- States what is differentiated. -/
  | given (label expr : String)
  /-- States the rule that applies. -/
  | rule (name formula : String) (depth : Nat)
  /-- Names the operands. -/
  | operands (var : String) (named : List (Char × String)) (depth : Nat)
  /-- Announces the derivatives of both operands. -/
  | separately (var : String) (depth : Nat)
  /-- Announces the derivative of an operand, `term`, whose text is `expr`. -/
  | header (name : Char) (var : String) (term : Term α) (expr : String) (depth : Nat)
  /-- States a derivative. -/
  | note (text : String) (depth : Nat)
  /-- States the derivative of an order. -/
  | result (order : Nat) (label expr : String)
  /-- Stands between the derivatives of two orders. -/
  | separator
  deriving Repr, Inhabited

namespace Line

variable {α : Type}

/-- The depth of the part of the term that the line is about. -/
def depth : Line α → Nat
  | rule _ _ d | operands _ _ d | separately _ d | header _ _ _ _ d | note _ d => d
  | computing _ _ | given _ _ | result _ _ _ | separator => 0

/-- An operand with its name. -/
def operandText (var : String) (operand : Char × String) : String :=
  s!"{operand.1}({var}) = {operand.2}"

/-- The text of the line. -/
def text : Line α → String
  | computing order var => s!"Computing the {ordinal order} derivative with respect to {var}"
  | given label expr => s!"Original expression: {label} = {expr}"
  | rule name formula _ => s!"Apply the {name}: {formula}"
  | operands var named _ => "where " ++ " and ".intercalate (named.map (operandText var))
  | separately var _ => s!"Compute f'({var}) and g'({var}) separately:"
  | header name var _ expr _ => s!"For {name}({var}) = {expr}:"
  | note text _ => text
  | result order label expr => s!"Result of the {ordinal order} derivative: {label} = {expr}"
  | separator => "----------"

end Line

end Fluxion
