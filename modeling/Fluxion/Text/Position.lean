/-!
# Lines and columns

Where an offset, counted in characters, stands in a text: its line and its column, both from one. A
line ends after a line feed, a carriage return, the two of them in this order, a vertical tab, a
form feed, or one of U+0085, U+2028 and U+2029. The end of the text belongs to its last line.
-/

namespace Fluxion.Text

/-- A place in a text. -/
structure Position where
  line : Nat
  column : Nat
  deriving DecidableEq, Repr

/-- Whether a character ends a line. -/
def endsLine (c : Char) : Bool :=
  c == '\n' || c == '\r' || c == '\x0b' || c == '\x0c' || c == '\u0085' || c == '\u2028'
    || c == '\u2029'

/-- Whether a line starts right after `c` in a text that goes on with `rest`: no line follows the
last line end, and a carriage return does not end its line when a line feed follows. -/
def lineStarts (c : Char) (rest : List Char) : Bool :=
  endsLine c && !rest.isEmpty && !(c == '\r' && rest.head? == some '\n')

namespace Position

/-- The place `n` characters further on in a text that goes on with the given characters, or nothing
past its end. -/
def advance (p : Position) : Nat → List Char → Option Position
  | 0, _ => some p
  | _ + 1, [] => none
  | n + 1, c :: rest =>
    advance (if lineStarts c rest then ⟨p.line + 1, 1⟩ else ⟨p.line, p.column + 1⟩) n rest

/-- The place of the character at an offset in a text. -/
def of? (cs : List Char) (offset : Nat) : Option Position :=
  advance ⟨1, 1⟩ offset cs

/-- An offset has a place if and only if it is at most the number of characters. -/
theorem advance_isSome_iff (p : Position) (n : Nat) (cs : List Char) :
    (p.advance n cs).isSome ↔ n ≤ cs.length := by
  induction cs generalizing p n with
  | nil => cases n <;> simp [advance]
  | cons c cs ih => cases n <;> simp [advance, ih]

/-- The text of a place, with question marks for a place that does not exist. -/
def text : Option Position → String
  | some p => toString p.line ++ ":" ++ toString p.column
  | none => "?:?"

end Position

end Fluxion.Text
