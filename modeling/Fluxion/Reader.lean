import Fluxion.Cursor
import Fluxion.Fault

/-!
# Readers

A reader takes a value from the tokens ahead of a cursor, or fails with a fault; either way it
leaves the cursor somewhere. Readers are combined so that one may be tried after another: an attempt
that fails puts the cursor back, and a fatal fault ends all attempts.
-/

namespace Fluxion

/-- Takes a value from the tokens ahead of the cursor. -/
abbrev Reader (β : Type) := ExceptT Fault (StateM Cursor) β

namespace Reader

variable {β γ : Type}

/-- What the reader makes of the tokens around a cursor, and where it leaves the cursor. -/
def runFrom (r : Reader β) (c : Cursor) : Except Fault β × Cursor :=
  (ExceptT.run r).run c

/-- The reader that does as the function says. -/
def ofFunction (f : Cursor → Except Fault β × Cursor) : Reader β :=
  ExceptT.mk (StateT.mk fun c => pure (f c))

/-- Fails with a fault. -/
def fail (f : Fault) : Reader β := throw f

/-- Fails at the next token, in a way that leaves room for another attempt. -/
def failHere (cause : Cause) : Reader β := do
  fail (.soft cause (← get).span)

/-- Fails at the next token for good. -/
def abortHere (cause : Cause) : Reader β := do
  fail (.hard cause (← get).span)

/-- Skips spaces. -/
def skipSpaces : Reader Unit := modify Cursor.skipSpaces

/-- Takes the next token that is not a space. -/
def next : Reader Token := do
  skipSpaces
  let c ← get
  match c.ahead with
  | t :: rest =>
    set (⟨t :: c.passed, rest⟩ : Cursor)
    pure t
  | [] => failHere .unexpectedEnd

/-- Takes the next token if `accept` makes something of it. -/
def accepting (expected : List TokenKind) (accept : Token → Option β) : Reader β := do
  let t ← next
  match accept t with
  | some b => pure b
  | none => fail (.soft (.unexpectedToken expected t.kind) t.span)

/-- Takes the next token if it is of the given kind. -/
def token (kind : TokenKind) : Reader Token :=
  accepting [kind] fun t => if t.kind = kind then some t else none

/-- Puts the cursor back if the reader fails. -/
def attempt (r : Reader β) : Reader β :=
  ofFunction fun c =>
    match r.runFrom c with
    | (.ok b, c') => (.ok b, c')
    | (.error f, _) => (.error f, c)

/-- Runs the reader and puts the cursor back in any case. -/
def peek (r : Reader β) : Reader (Option β) :=
  ofFunction fun c => (.ok (r.runFrom c).1.toOption, c)

/-- The value of the reader, or nothing if it fails. -/
def optional (r : Reader β) : Reader (Option β) :=
  ofFunction fun c =>
    match r.attempt.runFrom c with
    | (.ok b, c') => (.ok (some b), c')
    | (.error _, c') => (.ok none, c')

/-- Attempts the first reader, and then the second, unless the first fails for good. -/
def orElse (r s : Reader β) : Reader β :=
  ofFunction fun c =>
    match r.attempt.runFrom c with
    | (.error f, c') => if f.fatal then (.error f, c') else s.runFrom c'
    | done => done

/-- Makes every fault of the reader fatal. -/
def hardened (r : Reader β) : Reader β :=
  ofFunction fun c =>
    match r.runFrom c with
    | (.error f, c') => (.error f.harden, c')
    | done => done

/-- Reads all there is: fails if there are no tokens but spaces, or if any are left in the end. -/
def whole (r : Reader β) : Reader β := do
  if (← get).next?.isNone then
    fail (.soft .emptyExpression (← get).endSpan)
  let b ← r
  skipSpaces
  let c ← get
  match c.current? with
  | none => pure b
  | some t =>
    match t.kind with
    | .closing => fail (.hard (.unclosedParenthesis false) t.span)
    | .unknown => fail (.hard (.unexpectedCharacter t.lexeme) t.span)
    | _ => fail (.soft .expectedEnd (t.span.cover c.endSpan))

/-! ## What readers do to a cursor -/

@[simp] theorem runFrom_pure (b : β) (c : Cursor) : (pure b : Reader β).runFrom c = (.ok b, c) :=
  rfl

@[simp] theorem runFrom_ofFunction (f : Cursor → Except Fault β × Cursor) (c : Cursor) :
    (ofFunction f).runFrom c = f c := rfl

@[simp] theorem runFrom_fail (f : Fault) (c : Cursor) :
    (fail f : Reader β).runFrom c = (.error f, c) := rfl

@[simp] theorem runFrom_get (c : Cursor) : (get : Reader Cursor).runFrom c = (.ok c, c) := rfl

@[simp] theorem runFrom_set (c c' : Cursor) : (set c' : Reader PUnit).runFrom c = (.ok ⟨⟩, c') :=
  rfl

@[simp] theorem runFrom_skipSpaces (c : Cursor) : skipSpaces.runFrom c = (.ok (), c.skipSpaces) :=
  rfl

/-- One reader after another: the second starts where the first leaves the cursor, unless the first
fails. -/
theorem runFrom_bind (r : Reader β) (f : β → Reader γ) (c : Cursor) :
    (r >>= f).runFrom c =
      match r.runFrom c with
      | (.ok b, c') => (f b).runFrom c'
      | (.error e, c') => (.error e, c') := by
  simp only [runFrom, ExceptT.run_bind, StateT.run_bind]
  cases h : (ExceptT.run r).run c with
  | mk result c' => cases result <;> rfl

/-- A reader that fails in an attempt leaves the cursor where it was. -/
theorem runFrom_attempt_of_error {r : Reader β} {c c' : Cursor} {f : Fault}
    (h : r.runFrom c = (.error f, c')) : r.attempt.runFrom c = (.error f, c) := by
  simp [attempt, h]

/-- An attempt that succeeds is as good as the reader itself. -/
theorem runFrom_attempt_of_ok {r : Reader β} {c c' : Cursor} {b : β}
    (h : r.runFrom c = (.ok b, c')) : r.attempt.runFrom c = (.ok b, c') := by
  simp [attempt, h]

/-- Peeking never moves the cursor. -/
@[simp] theorem runFrom_peek (r : Reader β) (c : Cursor) :
    r.peek.runFrom c = (.ok (r.runFrom c).1.toOption, c) := rfl

end Reader

end Fluxion
