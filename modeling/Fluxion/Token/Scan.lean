import Fluxion.Token

/-!
# Scanning

A text is cut into tokens from left to right. At each place the longest possible token is taken: a
run of line breaks, a run of blanks, a name, a number with or without a fraction, an operator in its
ASCII or in its mathematical spelling, or a parenthesis. A character that starts none of these is a
token of its own. The tokens cover the text without a gap.
-/

namespace Fluxion.Token

/-- Whether the character breaks lines. -/
def isLineBreak (c : Char) : Bool := c == '\n' || c == '\r'

/-- Whether the character is a blank. -/
def isBlankSpace (c : Char) : Bool := c == ' ' || c == '\t'

/-- Whether a name can start with the character. -/
def isNameStart (c : Char) : Bool := c.isAlpha || c == '_'

/-- Whether a name can go on with the character. -/
def isNamePart (c : Char) : Bool := c.isAlphanum || c == '_'

/-- The longest fraction, a point and at least one digit, that a text starts with. -/
def fraction : List Char → List Char
  | '.' :: d :: rest => if d.isDigit then '.' :: d :: rest.takeWhile Char.isDigit else []
  | _ => []

/-- The kind of a number with the given digits, followed by the given fraction, and its characters.
-/
def number (whole fraction : List Char) : TokenKind × List Char :=
  (if fraction.isEmpty then .int else .decimal, whole ++ fraction)

/-- The kind of a token that is always a single character. -/
def single : Char → TokenKind
  | '+' => .plus
  | '-' | '−' => .minus
  | '*' | '·' | '×' => .times
  | '/' | '÷' => .divide
  | '^' => .power
  | '(' => .opening
  | ')' => .closing
  | _ => .unknown

/-- The longest token of a text that starts with `c` and goes on with `rest`: its kind, and what
follows `c` in it. -/
def first (c : Char) (rest : List Char) : TokenKind × List Char :=
  if isLineBreak c then
    (.lineBreak, rest.takeWhile isLineBreak)
  else if isBlankSpace c then
    (.blank, rest.takeWhile isBlankSpace)
  else if isNameStart c then
    (.name, rest.takeWhile isNamePart)
  else if c.isDigit then
    number (rest.takeWhile Char.isDigit) (fraction (rest.dropWhile Char.isDigit))
  else
    match fraction (c :: rest) with
    | [] => (single c, [])
    | _ :: digits => (.decimal, digits)

/-- The tokens of a text that starts at a byte offset. -/
def scanFrom (offset : Nat) : List Char → List Token
  | [] => []
  | c :: rest =>
    let (kind, tail) := first c rest
    let lexeme := String.ofList (c :: tail)
    let stop := offset + lexeme.utf8ByteSize
    ⟨kind, lexeme, ⟨offset, stop⟩⟩ :: scanFrom stop (rest.drop tail.length)
termination_by cs => cs.length

/-- The tokens of a text. -/
def scan (text : String) : List Token :=
  scanFrom 0 text.toList

@[simp] theorem scanFrom_nil (offset : Nat) : scanFrom offset [] = [] := by
  simp [scanFrom]

end Fluxion.Token
