import Fluxion.Term
import Fluxion.Text.Alphabetic

/-!
# The text of terms

A term is written so that it can be read again: parentheses stand only where the reader would group
differently without them. A minus sign at the front of an operand is merged into the plus or minus
before it, and a coefficient is written right before its factor where this can be read.

Exponents follow a caret, or, in the raised style, are written with raised digits if they are
integers.
-/

namespace Fluxion

/-- How exponents are written. -/
inductive ExponentStyle where
  /-- After a caret, as in `x^3` and `x^(-1)`. -/
  | caret
  /-- With raised digits, as in `x³` and `x⁻¹`, or else after a caret. -/
  | raised
  deriving DecidableEq, Repr, Inhabited

namespace Term

/-- How tightly the text of a term holds together, from loosest to tightest. -/
inductive Level where
  | sum
  | product
  | sign
  | power
  | atom
  deriving DecidableEq, Repr

/-- The place in the order of levels. -/
def Level.rank : Level → Nat
  | sum => 0
  | product => 1
  | sign => 2
  | power => 3
  | atom => 4

variable {α : Type} [Scalar α] [Numeral α]

/-- The level of the text of a term. -/
def level : Term α → Level
  | const v => if Scalar.isNegative v then .sign else .atom
  | symbol _ | call _ _ => .atom
  | sum _ _ | difference _ _ => .sum
  | product _ _ | quotient _ _ => .product
  | power _ _ => .power

/-- The term with the opposite value, if the text of the term starts with a minus sign. -/
def withoutMinus? : Term α → Option (Term α)
  | const v => if Scalar.isNegative v then some (const (-v)) else none
  | product left right =>
    if left.isValue (-1) then
      some right
    else
      left.withoutMinus?.map fun left => product left right
  | quotient left right => left.withoutMinus?.map fun left => quotient left right
  | _ => none

/-- Whether the text of the term starts with a minus sign that can be merged into an operator. -/
def hasMinus (t : Term α) : Bool := t.withoutMinus?.isSome

/-- The term without its minus sign. -/
def unsigned (t : Term α) : Term α := t.withoutMinus?.getD t

omit [Numeral α] in
/-- Taking a minus sign away leaves a term that is not larger. -/
theorem size_le_of_withoutMinus? {t s : Term α} (h : t.withoutMinus? = some s) :
    s.size ≤ t.size := by
  fun_induction withoutMinus? t generalizing s with
  | case1 => cases h; simp [size]
  | case2 => cases h
  | case3 => cases h; simp [size]
  | case4 left right _ ih =>
    obtain ⟨l, hl, rfl⟩ := Option.map_eq_some_iff.1 h
    have := ih hl
    simp [size]; omega
  | case5 left right ih =>
    obtain ⟨l, hl, rfl⟩ := Option.map_eq_some_iff.1 h
    have := ih hl
    simp [size]; omega
  | case6 => cases h

omit [Numeral α] in
/-- A term without its minus sign is not larger. -/
theorem size_unsigned_le (t : Term α) : t.unsigned.size ≤ t.size := by
  rw [unsigned]
  cases h : t.withoutMinus? with
  | none => simp
  | some s => simpa using size_le_of_withoutMinus? h

/-- A text in parentheses. -/
def wrap (text : List Char) : List Char :=
  '(' :: text ++ [')']

/-- The text, in parentheses if asked for. -/
def wrapIf (asked : Bool) (text : List Char) : List Char :=
  if asked then wrap text else text

/-- Whether a text starts with a minus sign. -/
def startsWithMinus (text : List Char) : Bool :=
  text.head? == some '-'

/-- Whether a coefficient can be written right before a text. -/
def takesCoefficient (text : List Char) : Bool :=
  match text with
  | c :: _ => Text.isAlphabetic c || c == '('
  | [] => false

/-- A digit or a minus sign, raised. -/
def raiseChar? : Char → Option Char
  | '-' => some '⁻'
  | '0' => some '⁰'
  | '1' => some '¹'
  | '2' => some '²'
  | '3' => some '³'
  | '4' => some '⁴'
  | '5' => some '⁵'
  | '6' => some '⁶'
  | '7' => some '⁷'
  | '8' => some '⁸'
  | '9' => some '⁹'
  | _ => none

/-- An exponent in raised digits. -/
def raisedExponent? (e : α) : Option (List Char) :=
  if Numeral.isShortInteger e then (Numeral.text e).mapM raiseChar? else none

/-- An exponent with what stands between it and its base. -/
def exponentText (style : ExponentStyle) (e : α) : List Char :=
  match style with
  | .caret => '^' :: wrapIf (Scalar.isNegative e) (Numeral.text e)
  | .raised => (raisedExponent? e).getD ('^' :: Numeral.text e)

/-- A coefficient before the text of its factor. -/
def coefficientText (c : α) (factor : List Char) : List Char :=
  if !takesCoefficient factor then
    Numeral.text c ++ '*' :: factor
  else if c == -1 then
    '-' :: factor
  else
    Numeral.text c ++ factor

/-- A plus or a minus between two operands. -/
def signText (minus : Bool) : List Char :=
  if minus then [' ', '-', ' '] else [' ', '+', ' ']

/-- The text of an operand after a plus, a minus or a coefficient: in parentheses if it is a sum or
a difference, or starts with a minus sign. -/
def operandText (t : Term α) (text : List Char) : List Char :=
  wrapIf (t.isAdditive || startsWithMinus text) text

/-- The text of a left operand: in parentheses if it holds together less tightly than `least`. -/
def leftText (least : Level) (t : Term α) (text : List Char) : List Char :=
  wrapIf (t.level.rank < least.rank) text

/-- The text of a right operand: in parentheses unless it holds together more tightly than `most`
and starts with no minus sign. -/
def rightText (most : Level) (t : Term α) (text : List Char) : List Char :=
  wrapIf (t.level.rank ≤ most.rank || startsWithMinus text) text

/-- The characters of a term. -/
def chars (style : ExponentStyle) : Term α → List Char
  | const v => Numeral.text v
  | symbol name => name.toList
  | sum left right =>
    left.chars style ++ signText right.hasMinus
      ++ operandText right.unsigned (right.unsigned.chars style)
  | difference left right =>
    left.chars style ++ signText (!right.hasMinus)
      ++ operandText right.unsigned (right.unsigned.chars style)
  | product (const c) right => coefficientText c (operandText right (right.chars style))
  | product left right =>
    leftText .product left (left.chars style) ++ '*' :: rightText .product right (right.chars style)
  | quotient left right =>
    leftText .product left (left.chars style) ++ '/' :: rightText .product right (right.chars style)
  | power base e => rightText .power base (base.chars style) ++ exponentText style e
  | call f arg => f.name.toList ++ wrap (arg.chars style)
termination_by t => t.size
decreasing_by all_goals grind [size, size_unsigned_le]

/-- The text of a term. -/
def text (style : ExponentStyle) (t : Term α) : String :=
  String.ofList (t.chars style)

end Term

end Fluxion
