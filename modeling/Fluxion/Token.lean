import Fluxion.Span

/-!
# Tokens

The smallest meaningful pieces of an expression. A token knows its kind, the characters that it is
made of, and where they stand.
-/

namespace Fluxion

/-- The kinds of tokens. -/
inductive TokenKind where
  | lineBreak
  | blank
  | plus
  | minus
  | times
  | divide
  | power
  | name
  | opening
  | closing
  | int
  | decimal
  | unknown
  deriving DecidableEq, Repr, Inhabited

namespace TokenKind

/-- Whether the token only separates other tokens. -/
def isSpace : TokenKind → Bool
  | lineBreak | blank => true
  | _ => false

/-- Whether the token is a number. -/
def isNumber : TokenKind → Bool
  | int | decimal => true
  | _ => false

/-- What the token is called in a message. -/
def describe : TokenKind → String
  | lineBreak => "a line break"
  | blank => "whitespace"
  | plus => "`+`"
  | minus => "`-`"
  | times => "`*`"
  | divide => "`/`"
  | power => "`^`"
  | name => "a name"
  | opening => "`(`"
  | closing => "`)`"
  | int | decimal => "a number"
  | unknown => "an unknown character"

end TokenKind

/-- A piece of an expression, with the characters that it is made of. -/
structure Token where
  kind : TokenKind
  lexeme : String
  span : Span
  deriving DecidableEq, Repr, Inhabited

namespace Token

/-- Whether the token only separates other tokens. -/
def isSpace (t : Token) : Bool := t.kind.isSpace

/-- Whether the token carries meaning. -/
def isSignificant (t : Token) : Bool := !t.isSpace

end Token

end Fluxion
