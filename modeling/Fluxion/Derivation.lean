import Fluxion.Explanation
import Fluxion.Explanation.Outline
import Fluxion.Expr.Reading
import Fluxion.Term.OfExpr
import Fluxion.Text.Blank

/-!
# Derivations

From the text of an expression to its derivatives and their explanation. A request is checked first:
its expression, its variable, and its order. Then the expression is read, and the derivatives are
taken one after the other, each from the one before it. Either all of them are computed, or the
first fault is reported.
-/

namespace Fluxion

/-- How derivatives are computed and presented. -/
structure Options where
  /-- How deep an expression may be nested. -/
  maxDepth : Nat := 512
  /-- The highest order that may be asked for. -/
  maxOrder : Nat := 64
  /-- How many nodes a derivative may have. -/
  maxNodes : Nat := 100000
  /-- Whether sums are put in descending order of their power of the variable. -/
  canonicalOrder : Bool := true
  exponentStyle : ExponentStyle := .caret
  /-- Whether the derivatives are explained. -/
  steps : Bool := true
  deriving DecidableEq, Repr, Inhabited

/-- The stage of a derivation that a fault belongs to. -/
inductive Stage where
  | reading
  | validation
  | differentiation
  deriving DecidableEq, Repr, Inhabited

/-- What a fault of the stage is called. -/
def Stage.category : Stage → String
  | reading => "parse error"
  | validation => "validation error"
  | differentiation => "differentiation error"

/-- A fault and the stage that it belongs to. -/
structure Failure where
  stage : Stage
  fault : Fault
  deriving DecidableEq, Repr, Inhabited

/-- What is asked for. -/
structure Request where
  expression : String
  var : String
  order : Int
  deriving DecidableEq, Repr, Inhabited

/-- The derivatives of a term and their explanation. -/
structure Derivation (α : Type) where
  /-- The text of the last derivative. -/
  result : String
  /-- The term that was differentiated. -/
  term : Term α
  /-- All derivatives from the first to the last. -/
  orders : List (Term α)
  /-- The numbered explanation, if it was asked for. -/
  steps : List String
  deriving Repr, Inhabited

namespace Failure

/-- A failed check. -/
def invalid (cause : Cause) : Failure := ⟨.validation, .ofRequest cause⟩

/-- An expression that cannot be read. -/
def unreadable (fault : Fault) : Failure := ⟨.reading, fault⟩

/-- An expression without a derivative, with the places where this shows. -/
def underivable (cause : Cause) (spans : List Span) : Failure :=
  ⟨.differentiation, cause, spans, false⟩

end Failure

/-- Whether a number may be given as an order: the numbers of 64 bits may. -/
def orderInRange (n : Int) : Bool := -0x8000000000000000 ≤ n && n < 0x8000000000000000

/-- The integer that is written by the given characters: a sign, which may be left out, and digits.
-/
def integer? (cs : List Char) : Option Int :=
  let unsigned (ds : List Char) : Option Int :=
    if !ds.isEmpty && ds.all Char.isDigit then some (Numeral.digitsValue ds) else none
  match cs with
  | '-' :: ds => (unsigned ds).map (- ·)
  | '+' :: ds => unsigned ds
  | ds => unsigned ds

/-- The order that is written by a text, white space around it aside. -/
def orderOfText (raw : String) : Except Failure Int :=
  match (integer? (Text.trim raw.toList)).filter orderInRange with
  | some n => .ok n
  | none => .error (.invalid (.invalidOrder raw))

/-- Whether a name is read as a symbol. -/
def isVariable (name : String) : Bool :=
  match Token.scan name with
  | [t] => t.kind == .name && (Func.ofName? name).isNone
  | _ => false

namespace Request

/-- The variable without the white space around it. -/
def trimmedVariable (r : Request) : String :=
  String.ofList (Text.trim r.var.toList)

/-- Checks the request, and gives the variable and the order. -/
def validate (r : Request) (options : Options) : Except Failure (String × Nat) :=
  let var := r.trimmedVariable
  if (Text.trim r.expression.toList).isEmpty then
    .error (.invalid .missingExpression)
  else if var.isEmpty then
    .error (.invalid .missingVariable)
  else if !isVariable var then
    .error (.invalid (.invalidVariable var))
  else if r.order < 1 then
    .error (.invalid (.invalidOrder (toString r.order)))
  else if options.maxOrder < r.order then
    .error (.invalid (.orderTooLarge r.order options.maxOrder))
  else
    .ok (var, r.order.toNat)

end Request

namespace Derivation

variable {α : Type} [Scalar α] [Numeral α]

/-- The term of an expression that does not divide by zero. -/
def readTerm (options : Options) (expression : String) : Except Failure (Term α) := do
  let e : Expr α ← (Expr.ofText expression).mapError .unreadable
  let t ← (Term.ofExpr options.maxDepth e).mapError .unreadable
  match e.zeroDivisor? with
  | some span => .error (.underivable .divisionByZero [span])
  | none =>
    if t.dividesByZero then
      .error (.underivable .divisionByZero [])
    else
      .ok t

/-- The derivative of a term as the options ask for it. -/
def next (options : Options) (var : String) (t : Term α) : Term α :=
  let d := (t.derivative var).simplify
  if options.canonicalOrder then d.canonicalize var else d

/-- The derivatives of a term from one order on, `count` of them. -/
def take (options : Options) (var : String) (t : Term α) (order : Nat) :
    (count : Nat) → Except Failure (List (Term α))
  | 0 => .ok []
  | count + 1 =>
    let d := next options var t
    if d.dividesByZero then
      .error (.underivable .divisionByZero [])
    else if options.maxNodes < d.size then
      .error (.underivable (.resultTooLarge order options.maxNodes) [])
    else do
      let rest ← take options var d (order + 1) count
      .ok (d :: rest)

/-- Presents the derivatives of a term. -/
def present (options : Options) (var : String) (t : Term α) (orders : List (Term α)) :
    Derivation α where
  result := (orders.getLast?.getD t).text options.exponentStyle
  term := t
  orders := orders
  steps :=
    if options.steps then
      Line.outline ((Explainer.mk var options.exponentStyle).all 1 t orders)
    else
      []

/-- The derivatives of an expression up to an order. -/
def compute (request : Request) (options : Options) : Except Failure (Derivation α) := do
  let (var, order) ← request.validate options
  let t ← readTerm options request.expression
  let orders ← take options var t 1 order
  .ok (present options var t orders)

end Derivation

end Fluxion
