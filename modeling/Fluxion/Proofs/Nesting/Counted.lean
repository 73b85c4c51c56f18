import Fluxion.Expr.Node

/-!
# Reading with a counter

What a reader may still nest is told by the levels that are stacked below it. A parser that runs has
no such stack: it keeps a counter next to its cursor, raises it when a level is entered, and lowers it
when the level is left, whether anything could be read or not. An attempt that fails puts back the
cursor, and leaves the counter alone.

Here the parts of an expression are read in this way, with the same readers for everything that does
not nest. The levels are stacked only because every definition has to end. The counter alone decides
whether a level is entered, and the stack is as high as the counter can get.
-/

namespace Fluxion

/-- What a parser keeps. -/
structure Parser where
  cursor : Cursor
  /-- How many levels have been entered and not left. -/
  depth : Nat
  deriving DecidableEq, Repr, Inhabited

/-- A parser under observation. -/
structure Watched extends Parser where
  /-- The greatest depth at which the parser has ever been. -/
  deepest : Nat
  deriving DecidableEq, Repr, Inhabited

/-- The parser before the first token of a text. -/
def Watched.ofText (text : String) : Watched := ⟨⟨.ofText text, 0⟩, 0⟩

/-- Takes a value from the tokens ahead of a parser, and counts the levels. -/
def Counted (β : Type) : Type := Watched → Except Fault β × Watched

namespace Counted

variable {β γ : Type}

instance : Monad Counted where
  pure b := fun w => (.ok b, w)
  bind m f := fun w =>
    match m w with
    | (.ok b, w') => f b w'
    | (.error e, w') => (.error e, w')

theorem bind_of_ok {m : Counted γ} {w w' : Watched} {b : γ} (h : m w = (.ok b, w'))
    (f : γ → Counted β) : (m >>= f) w = f b w' := by
  simp only [bind, h]

/-- Nothing runs after a fault. -/
theorem bind_of_error {m : Counted γ} {w w' : Watched} {e : Fault} (h : m w = (.error e, w'))
    (f : γ → Counted β) : (m >>= f) w = (.error e, w') := by
  simp only [bind, h]

/-- Reads what does not nest. -/
def lift (r : Reader β) : Counted β := fun w =>
  ((r.runFrom w.cursor).1, { w with cursor := (r.runFrom w.cursor).2 })

instance : Inhabited (Counted β) := ⟨lift (Reader.failHere .unexpectedEnd)⟩

/-- The place of the parser. -/
def here : Counted Cursor := lift get

/-- Puts the cursor back if the reader fails. -/
def attempt (m : Counted β) : Counted β := fun w =>
  match m w with
  | (.ok b, w') => (.ok b, w')
  | (.error f, w') => (.error f, { w' with cursor := w.cursor })

/-- Puts the cursor back in any case. -/
def peek (m : Counted β) : Counted (Option β) := fun w =>
  (.ok (m w).1.toOption, { (m w).2 with cursor := w.cursor })

/-- The value of the reader, or nothing if it fails. -/
def optional (m : Counted β) : Counted (Option β) := fun w =>
  match m.attempt w with
  | (.ok b, w') => (.ok (some b), w')
  | (.error _, w') => (.ok none, w')

/-- Attempts the first reader, and then the second, unless the first fails for good. -/
def orElse (m m' : Counted β) : Counted β := fun w =>
  match m.attempt w with
  | (.error f, w') => if f.fatal then (.error f, w') else m' w'
  | done => done

/-- Makes every fault of the reader fatal. -/
def hardened (m : Counted β) : Counted β := fun w =>
  match m w with
  | (.error f, w') => (.error f.harden, w')
  | done => done

/-- Reads one level further in, unless too many levels have been entered. -/
def nested (m : Counted β) : Counted β := fun w =>
  if maxNesting ≤ w.depth then
    lift (Reader.abortHere (.nestedTooDeeply maxNesting)) w
  else
    let inside := m { w with depth := w.depth + 1, deepest := max w.deepest (w.depth + 1) }
    (inside.1, { inside.2 with depth := inside.2.depth - 1 })

/-- Reads all there is. -/
def whole (m : Counted β) : Counted β := do
  if (← here).next?.isNone then
    lift (Reader.fail (.soft .emptyExpression (← here).endSpan))
  let b ← m
  lift Reader.skipSpaces
  let c ← here
  match c.current? with
  | none => pure b
  | some t =>
    match t.kind with
    | .closing => lift (Reader.fail (.hard (.unclosedParenthesis false) t.span))
    | .unknown => lift (Reader.fail (.hard (.unexpectedCharacter t.lexeme) t.span))
    | _ => lift (Reader.fail (.soft .expectedEnd (t.span.cover c.endSpan)))

/-! ## Expressions -/

/-- What is read one level further in. -/
structure Inner (α : Type) where
  expr : Counted (Expr α)
  signed : Counted (Expr α)
  climb : Expr α → Precedence → Counted (Expr α)
  deriving Inhabited

variable {α : Type} [Scalar α] [Numeral α] (inner : Inner α)

/-- Reads a whole expression. -/
def readExpr : Counted (Expr α) :=
  nested do
    let first ← inner.signed
    inner.climb first .any

/-- Reads the rest of a pair of parentheses. -/
def readDelimited (read : Counted (Expr α)) (opening : Token) : Counted (Expr α × Token) := do
  if (← here).nextKind? = some .closing then
    lift (Reader.fail (.hard .emptyParenthesis (opening.span.cover (← here).span)))
  let e ← read.attempt.hardened
  match (← here).nextKind? with
  | some .closing =>
    let closing ← (lift (Reader.token .closing)).attempt
    pure (e, closing)
  | none => lift (Reader.fail (.hard (.unclosedParenthesis true) opening.span))
  | some found => lift (Reader.abortHere (.unexpectedToken [.closing] found))

/-- Reads an expression in parentheses. -/
def readParen : Counted (Expr α) := do
  let opening ← (lift (Reader.token .opening)).attempt
  let (e, closing) ← readDelimited (readExpr inner) opening
  pure (.paren e (opening.span.cover closing.span))

/-- Reads a function with its argument in parentheses. -/
def readCall : Counted (Expr α) := do
  let name ← (lift (Reader.token .name)).attempt
  let opening? ← (lift (Reader.token .opening)).optional
  match Func.ofName? name.lexeme, opening? with
  | none, none => lift (Reader.fail (.soft .mismatch name.span))
  | none, some _ => lift (Reader.fail (.hard (.unknownFunction name.lexeme) name.span))
  | some _, none => lift (Reader.fail (.hard (.missingArgument name.lexeme) name.span))
  | some func, some opening =>
    let (arg, closing) ← nested (readDelimited inner.expr opening)
    pure (.call func name.lexeme name.span arg (opening.span.cover closing.span))

/-- Reads an operand without a sign. -/
def readOperand : Counted (Expr α) := do
  lift Expr.checkOperand
  (readCall inner).orElse ((lift Expr.readLiteral).orElse (readParen inner).attempt)

/-- Reads a sign and its operand. -/
def readNegation : Counted (Expr α) :=
  nested do
    let sign ← (lift Expr.readSign).attempt
    let first ← inner.signed
    let operand ← inner.climb first UnaryOp.negate.precedence
    pure (.negation sign operand (sign.cover operand.span))

/-- Reads an operand, with its signs. -/
def readSigned : Counted (Expr α) := do
  if (← here).nextKind? = some .minus then
    (readNegation inner).attempt
  else
    (readOperand inner).attempt

/-- Extends an operand by the operators after it that outrank a precedence. -/
def raise (outer : Precedence) : (bound : List Token) → Expr α → Counted (Expr α)
  | [], operand => pure operand
  | _ :: bound, operand => do
    match (← here).joiner? with
    | none => pure operand
    | some joiner =>
      if joiner.outranks outer then
        let extended ← nested (inner.climb operand joiner.precedence)
        raise outer bound extended
      else
        pure operand

/-- Extends an operand by the operators after it that bind at least as tightly as `least`. -/
def climbAlong (least : Precedence) : (bound : List Token) → Expr α → Counted (Expr α)
  | [], left => pure left
  | _ :: bound, left => do
    match (← here).joiner? with
    | none => pure left
    | some joiner =>
      if joiner.precedence < least then
        pure left
      else
        let written ←
          match joiner with
          | .written _ => (·.span) <$> (lift Expr.readOperator).attempt
          | .juxtaposed => pure default
        let operand ← readSigned inner
        let right ← raise inner joiner.precedence (← here).ahead operand
        climbAlong least bound (Expr.join joiner written left right)

/-- Extends an operand by all the operators after it that bind at least as tightly as `least`. -/
def climb (left : Expr α) (least : Precedence) : Counted (Expr α) := do
  climbAlong inner least (← here).ahead left

/-- What is read at a level, given what is read one level further in. -/
def Inner.within : Inner α where
  expr := readExpr inner
  signed := readSigned inner
  climb := Counted.climb inner

/-- What is read one level further in, on a stack of levels. Below the last level nothing can be
read. -/
def Inner.ofHeight : Nat → Inner α
  | 0 => default
  | height + 1 => .within (ofHeight height)

/-- What is read one level further in at the outermost level. -/
def outermost : Inner α := .ofHeight maxNesting

/-- Reads a part of the given kind. -/
def readNode : NodeKind → Counted (Node α)
  | .expr => .expr <$> readExpr outermost
  | .operand => .expr <$> readOperand outermost
  | .literal => .expr <$> lift Expr.readLiteral
  | .number => .expr <$> lift Expr.readNumber
  | .symbol => .expr <$> lift Expr.readSymbol
  | .call => .expr <$> readCall outermost
  | .paren => .expr <$> readParen outermost
  | .negation => .expr <$> readNegation outermost
  | .sign => .sign <$> lift Expr.readSign
  | .operator => .operator <$> lift Expr.readOperator
  | .opening => (.opening ·.span) <$> lift (Reader.token .opening)
  | .closing => (.closing ·.span) <$> lift (Reader.token .closing)

/-- Reads an operand with its signs, and extends it by the operators after it that bind at least as
tightly as `least`. -/
def readClimbing (least : Precedence) : Counted (Node α) := do
  let first ← readSigned outermost
  .expr <$> climb outermost first least

end Counted

end Fluxion
