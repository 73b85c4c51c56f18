import Fluxion.Operator
import Fluxion.Token.Scan

/-!
# Cursors

A place between two tokens of an expression. The cursor holds the tokens that are already read and
those that are still ahead; together they are always all the tokens of the expression. Spaces never
matter to what is previous or next.
-/

namespace Fluxion

/-- A place between two tokens. -/
structure Cursor where
  /-- The tokens before the cursor, the nearest first. -/
  passed : List Token
  /-- The tokens after the cursor, the nearest first. -/
  ahead : List Token
  deriving DecidableEq, Repr, Inhabited

namespace Cursor

/-- The cursor before the first token of a text. -/
def ofText (text : String) : Cursor := ⟨[], Token.scan text⟩

/-- All the tokens around the cursor, in order. -/
def tokens (c : Cursor) : List Token := c.passed.reverse ++ c.ahead

/-- The number of tokens before the cursor. -/
def index (c : Cursor) : Nat := c.passed.length

/-- The token right after the cursor, which may be a space. -/
def current? (c : Cursor) : Option Token := c.ahead.head?

/-- The next token that is not a space. -/
def next? (c : Cursor) : Option Token := c.ahead.find? Token.isSignificant

/-- The kind of the next token that is not a space. -/
def nextKind? (c : Cursor) : Option TokenKind := c.next?.map (·.kind)

/-- The last token before the cursor that is not a space. -/
def previous? (c : Cursor) : Option Token := c.passed.find? Token.isSignificant

/-- The end of the expression, as an empty span. -/
def endSpan (c : Cursor) : Span :=
  match c.ahead.getLast?, c.passed.head? with
  | some t, _ => .empty t.span.stop
  | none, some t => .empty t.span.stop
  | none, none => .empty 0

/-- Where the next token stands that is not a space, or the end of the expression. -/
def span (c : Cursor) : Span :=
  match c.next? with
  | some t => t.span
  | none => c.endSpan

/-- Whether a multiplication may be left out at the cursor: a number or a closing parenthesis stands
before it, and a name or an opening parenthesis after it. -/
def juxtaposes (c : Cursor) : Bool :=
  match c.previous?, c.nextKind? with
  | some t, some .name | some t, some .opening => t.kind.isNumber || t.kind == .closing
  | _, _ => false

/-- What one more token does to the number of open parentheses. -/
def countOpen (t : Token) (count : Nat) : Nat :=
  match t.kind with
  | .opening => count + 1
  | .closing => count - 1
  | _ => count

/-- The number of parentheses that are opened and not closed before the cursor. -/
def unclosed (c : Cursor) : Nat := c.passed.foldr countOpen 0

/-- The cursor after the spaces at the front of the given tokens. -/
def afterSpaces (passed : List Token) : List Token → Cursor
  | [] => ⟨passed, []⟩
  | t :: rest => if t.isSpace then afterSpaces (t :: passed) rest else ⟨passed, t :: rest⟩

/-- The cursor moved past the spaces ahead of it. -/
def skipSpaces (c : Cursor) : Cursor := afterSpaces c.passed c.ahead

/-- What joins the operand before the cursor to the next one, if anything does. -/
def joiner? (c : Cursor) : Option Joiner :=
  match c.nextKind?.bind BinaryOp.ofToken? with
  | some op => some (.written op)
  | none => if c.juxtaposes then some .juxtaposed else none

theorem tokens_afterSpaces (passed ahead : List Token) :
    (afterSpaces passed ahead).tokens = passed.reverse ++ ahead := by
  induction ahead generalizing passed with
  | nil => rfl
  | cons t rest ih =>
    rw [afterSpaces]
    split
    · simp [ih]
    · rfl

/-- Skipping spaces keeps the tokens. -/
@[simp] theorem tokens_skipSpaces (c : Cursor) : c.skipSpaces.tokens = c.tokens :=
  tokens_afterSpaces c.passed c.ahead

end Cursor

end Fluxion
