import Fluxion.Explanation.Line

/-!
# Numbered steps

The lines of an explanation are arranged from top to bottom. A line starts a new numbered step, is
indented below the current one, or is dropped. Announcements, the rule for the whole term, the start
of the explanation of its operands, and results start steps; the numbers go on across orders. The
explanation of an operand that is a monomial is dropped, except for the line with its derivative and
the lines that name operands.
-/

namespace Fluxion

/-- A line in its place. -/
inductive Entry (α : Type) where
  | numbered (number : Nat) (line : Line α)
  | indented (levels : Nat) (line : Line α)
  | bare (line : Line α)
  deriving Repr, Inhabited

namespace Entry

variable {α : Type}

/-- The line that was placed. -/
def line : Entry α → Line α
  | numbered _ l | indented _ l | bare l => l

/-- The spaces before a line. -/
def indent (levels : Nat) : String :=
  String.ofList (List.replicate (3 * levels) ' ')

/-- The text of the line in its place. -/
def text : Entry α → String
  | numbered number l => s!"{number}. {l.text}"
  | indented levels l => indent levels ++ l.text
  | bare l => l.text

end Entry

namespace Outline

/-- What was announced last. -/
inductive Context where
  | none
  | wholeTerm
  | operands
  | rule
  deriving DecidableEq, Repr

/-- What the lines so far say about the next one. -/
structure State where
  context : Context
  /-- The depth of the monomial whose explanation is being dropped. -/
  skipped : Option Nat
  /-- The number of the last step. -/
  step : Nat
  /-- Whether the last line that was kept started a step. -/
  afterStep : Bool
  deriving Repr

/-- The state before the first line. -/
def State.initial : State := ⟨.none, none, 0, false⟩

variable {α : Type}

/-- Whether the line announces an operand whose derivative is obvious. -/
def isObvious : Line α → Bool
  | .header _ _ t _ _ => t.isMonomial
  | _ => false

namespace State

/-- Starts a step. -/
def number (s : State) (l : Line α) : State × List (Entry α) :=
  ({ s with step := s.step + 1, afterStep := true }, [.numbered (s.step + 1) l])

/-- Indents a line below the current step. -/
def indent (s : State) (levels : Nat) (l : Line α) : State × List (Entry α) :=
  ({ s with afterStep := false }, [.indented levels l])

/-- Leaves a line out. -/
def drop (s : State) : State × List (Entry α) := (s, [])

/-- Whether a line belongs to what is dropped. The lines that name operands never do, and the
derivative of the monomial itself does not. -/
def drops (s : State) (l : Line α) : Bool :=
  match s.skipped, l with
  | _, .operands _ _ _ => false
  | some depth, .note _ d => depth < d
  | some depth, l => depth ≤ l.depth
  | none, _ => false

/-- Indents a line one level below its depth, unless it is dropped. -/
def keep (s : State) (l : Line α) : State × List (Entry α) :=
  if s.drops l then s.drop else s.indent (l.depth + 1) l

/-- The state when a line is met: a line about the whole term ends what is dropped. -/
def meeting (s : State) (l : Line α) : State :=
  if l.depth = 0 then { s with skipped := none } else s

/-- Whether the rule for the whole term is due. -/
def expectsRule (s : State) : Bool := s.context == .wholeTerm

/-- Places a line. -/
def place (s : State) (l : Line α) : State × List (Entry α) :=
  match l with
  | .computing _ _ => { s with context := .wholeTerm }.number l
  | .result _ _ _ => { s with context := .none }.number l
  | .given _ _ => s.indent 1 l
  | .separator => ({ s with afterStep := false }, [.bare l])
  | .separately _ depth =>
    let s := { s with context := .operands }
    if depth = 0 then s.number l else s.keep l
  | .header _ _ _ _ depth =>
    if s.skipped.any (· < depth) then
      s.drop
    else
      { s with skipped := if isObvious l then some depth else none }.indent depth l
  | .rule _ _ depth =>
    if depth = 0 ∧ s.expectsRule then
      if s.afterStep then s.indent 1 l else s.number l
    else
      { s with context := .rule }.keep l
  | .operands _ _ _ | .note _ _ => s.keep l

end State

/-- Places lines one after the other. -/
def arrangeFrom (s : State) : List (Line α) → List (Entry α)
  | [] => []
  | l :: rest =>
    let (s', entries) := (s.meeting l).place l
    entries ++ arrangeFrom s' rest

/-- The lines of an explanation in their places. -/
def arrange (lines : List (Line α)) : List (Entry α) :=
  arrangeFrom .initial lines

end Outline

/-- The text of an explanation. -/
def Line.outline {α : Type} (lines : List (Line α)) : List String :=
  (Outline.arrange lines).map Entry.text

end Fluxion
