import Fluxion.Token

/-!
# Faults

Why an expression cannot be read or differentiated. A fault has a cause, the places in the
expression where it shows, and it may be fatal: then no other way of reading the expression is
tried.
-/

namespace Fluxion

/-- The causes of faults. -/
inductive Cause where
  /-- The reader was in the wrong place and has to try something else. -/
  | mismatch
  | emptyExpression
  | unexpectedEnd
  | expectedEnd
  | unexpectedToken (expected : List TokenKind) (found : TokenKind)
  /-- `opening` tells a `(` that is never closed from a `)` that was never opened. -/
  | unclosedParenthesis (opening : Bool)
  | emptyParenthesis
  | unknownFunction (name : String)
  | missingArgument (name : String)
  | numberTooLarge
  | unexpectedCharacter (lexeme : String)
  | nestedTooDeeply (most : Nat)
  | variableExponent (name : String)
  | exponentNotFinite
  | expressionTooDeep (most : Nat)
  | missingExpression
  | missingVariable
  | invalidVariable (name : String)
  | invalidOrder (raw : String)
  | orderTooLarge (order : Int) (most : Nat)
  | divisionByZero
  | resultTooLarge (order : Nat) (most : Nat)
  deriving DecidableEq, Repr, Inhabited

/-- A cause and the places where it shows. -/
structure Fault where
  cause : Cause
  spans : List Span
  fatal : Bool
  deriving DecidableEq, Repr, Inhabited

namespace Fault

/-- A fault that leaves room for another way of reading. -/
def soft (cause : Cause) (span : Span) : Fault := ⟨cause, [span], false⟩

/-- A fault that ends the reading. -/
def hard (cause : Cause) (span : Span) : Fault := ⟨cause, [span], true⟩

/-- A fault of the request as a whole, at no place of the expression. -/
def ofRequest (cause : Cause) : Fault := ⟨cause, [], false⟩

/-- The same fault, ending the reading. -/
def harden (f : Fault) : Fault := { f with fatal := true }

/-- The offset at which the fault starts, if it has a place. -/
def position? (f : Fault) : Option Nat := f.spans.head?.map (·.start)

end Fault

end Fluxion
