import Fluxion.Expr
import Fluxion.Reader
import Fluxion.Scalar

/-!
# Reading expressions

An expression is a chain of operands joined by operators. It is read by precedence climbing: an
operand is extended by the operators after it as long as they bind tightly enough, and an operator
that outranks the one before it takes the operand between them.

Parentheses of a call, signs, right operands that are extended, and whole expressions are read one
level further in. At most `maxNesting` levels are entered. What can be read at one level is
therefore defined from what can be read one level further in (`Inner`), and the levels are stacked
by recursion on the number of levels that are left.
-/

namespace Fluxion

/-- The number of levels that an expression can be nested. -/
def maxNesting : Nat := 128

namespace Expr

variable {α : Type} [Scalar α] [Numeral α]

/-- Reads a number. One that is too large to be represented is reported for what it is. -/
def readNumber : Reader (Expr α) := do
  let t ← Reader.accepting [.int, .decimal] fun t => if t.kind.isNumber then some t else none
  let value : α := Numeral.ofChars t.lexeme.toList
  if Scalar.isFinite value then
    pure (.number value t.span)
  else
    Reader.fail (.hard .numberTooLarge t.span)

/-- Reads a name as a symbol. -/
def readSymbol : Reader (Expr α) := do
  let t ← Reader.token .name
  pure (.symbol t.lexeme t.span)

/-- Reads a number or a symbol. -/
def readLiteral : Reader (Expr α) :=
  readNumber.orElse readSymbol.attempt

/-- Reads the sign in front of an operand. -/
def readSign : Reader Span :=
  Reader.accepting UnaryOp.tokens fun t => (UnaryOp.ofToken? t.kind).map fun _ => t.span

/-- Reads an operator between two operands. -/
def readOperator : Reader Operator :=
  Reader.accepting BinaryOp.tokens fun t =>
    (BinaryOp.ofToken? t.kind).map fun op => ⟨op, false, t.span⟩

/-- The kinds of tokens that an operand starts with. -/
def operandStart : List TokenKind := [.int, .decimal, .name, .opening]

/-- Fails unless an operand can start with the next token. -/
def checkOperand : Reader Unit := do
  let c ← get
  match c.nextKind? with
  | none => Reader.failHere .unexpectedEnd
  | some kind =>
    if kind ∈ operandStart then
      pure ()
    else if kind = .closing ∧ c.unclosed = 0 then
      Reader.abortHere (.unclosedParenthesis false)
    else if kind = .unknown then
      let t ← Reader.next
      Reader.fail (.hard (.unexpectedCharacter t.lexeme) t.span)
    else
      Reader.abortHere (.unexpectedToken operandStart kind)

/-- What is read one level further in. -/
structure Inner (α : Type) where
  /-- Reads a whole expression. -/
  expr : Reader (Expr α)
  /-- Reads an operand, with its signs. -/
  signed : Reader (Expr α)
  /-- Extends an operand by the operators after it that bind at least as tightly as a precedence. -/
  climb : Expr α → Precedence → Reader (Expr α)

/-- Reads one level further in, if any levels are left. -/
def nested {β : Type} (inner : Option (Inner α)) (read : Inner α → Reader β) : Reader β :=
  match inner with
  | some level => read level
  | none => Reader.abortHere (.nestedTooDeeply maxNesting)

/-- Reads a whole expression. -/
def readExpr (inner : Option (Inner α)) : Reader (Expr α) :=
  nested inner fun level => do
    let first ← level.signed
    level.climb first .any

/-- Reads the rest of a pair of parentheses, whose content is read by `read`: the content and the
closing parenthesis. After the opening parenthesis every fault is fatal, for nothing else can be
meant. -/
def readDelimited (read : Reader (Expr α)) (opening : Token) : Reader (Expr α × Token) := do
  if (← get).nextKind? = some .closing then
    Reader.fail (.hard .emptyParenthesis (opening.span.cover (← get).span))
  let e ← read.attempt.hardened
  match (← get).nextKind? with
  | some .closing =>
    let closing ← (Reader.token .closing).attempt
    pure (e, closing)
  | none => Reader.fail (.hard (.unclosedParenthesis true) opening.span)
  | some found => Reader.abortHere (.unexpectedToken [.closing] found)

/-- Reads an expression in parentheses. -/
def readParen (inner : Option (Inner α)) : Reader (Expr α) := do
  let opening ← (Reader.token .opening).attempt
  let (e, closing) ← readDelimited (readExpr inner) opening
  pure (.paren e (opening.span.cover closing.span))

/-- Reads a function with its argument in parentheses. A name that is no function and has no
parenthesis after it is left to be read as a symbol. -/
def readCall (inner : Option (Inner α)) : Reader (Expr α) := do
  let name ← (Reader.token .name).attempt
  let opening? ← (Reader.token .opening).optional
  match Func.ofName? name.lexeme, opening? with
  | none, none => Reader.fail (.soft .mismatch name.span)
  | none, some _ => Reader.fail (.hard (.unknownFunction name.lexeme) name.span)
  | some _, none => Reader.fail (.hard (.missingArgument name.lexeme) name.span)
  | some func, some opening =>
    let (arg, closing) ← nested inner fun level => readDelimited level.expr opening
    pure (.call func name.lexeme name.span arg (opening.span.cover closing.span))

/-- Reads an operand without a sign. -/
def readOperand (inner : Option (Inner α)) : Reader (Expr α) := do
  checkOperand
  (readCall inner).orElse (readLiteral.orElse (readParen inner).attempt)

/-- Reads a sign and its operand, which may have a sign of its own. -/
def readNegation (inner : Option (Inner α)) : Reader (Expr α) :=
  nested inner fun level => do
    let sign ← readSign.attempt
    let first ← level.signed
    let operand ← level.climb first UnaryOp.negate.precedence
    pure (.negation sign operand (sign.cover operand.span))

/-- Reads an operand, with its signs. -/
def readSigned (inner : Option (Inner α)) : Reader (Expr α) := do
  if (← get).nextKind? = some .minus then
    (readNegation inner).attempt
  else
    (readOperand inner).attempt

/-- Extends an operand by the operators after it that outrank a precedence. At most as many
operators are taken as there are tokens in `bound`. -/
def raise (inner : Option (Inner α)) (outer : Precedence) :
    (bound : List Token) → Expr α → Reader (Expr α)
  | [], operand => pure operand
  | _ :: bound, operand => do
    match (← get).joiner? with
    | none => pure operand
    | some joiner =>
      if joiner.outranks outer then
        let extended ← nested inner fun level => level.climb operand joiner.precedence
        raise inner outer bound extended
      else
        pure operand

/-- Extends an operand by the operators after it that bind at least as tightly as `least`. At most
as many operators are taken as there are tokens in `bound`. -/
def climbAlong (inner : Option (Inner α)) (least : Precedence) :
    (bound : List Token) → Expr α → Reader (Expr α)
  | [], left => pure left
  | _ :: bound, left => do
    match (← get).joiner? with
    | none => pure left
    | some joiner =>
      if joiner.precedence < least then
        pure left
      else
        let written ←
          match joiner with
          | .written _ => (·.span) <$> readOperator.attempt
          | .juxtaposed => pure default
        let operand ← readSigned inner
        let right ← raise inner joiner.precedence (← get).ahead operand
        climbAlong inner least bound (join joiner written left right)

/-- Extends an operand by all the operators after it that bind at least as tightly as `least`. There
are no more of them than tokens ahead. -/
def climb (inner : Option (Inner α)) (left : Expr α) (least : Precedence) : Reader (Expr α) := do
  climbAlong inner least (← get).ahead left

/-- What is read at a level, given what is read one level further in. -/
def Inner.within (inner : Option (Inner α)) : Inner α where
  expr := readExpr inner
  signed := readSigned inner
  climb := Expr.climb inner

/-- What is read one level further in when `room` levels are left. -/
def Inner.ofRoom : Nat → Option (Inner α)
  | 0 => none
  | room + 1 => some (.within (ofRoom room))

/-- What is read one level further in at the outermost level. -/
def outermost : Option (Inner α) := Inner.ofRoom maxNesting

/-- The expression that a text stands for. -/
def ofText (text : String) : Except Fault (Expr α) :=
  ((readExpr outermost).whole.runFrom (Cursor.ofText text)).1

end Expr

end Fluxion
