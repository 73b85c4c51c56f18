import Fluxion.Func

/-!
# Numbers

Terms, their simplification and their derivatives do not depend on what the numbers in them are, as
long as the numbers can be calculated with and compared. `Scalar` collects what the algebra asks of
them, and `Numeral` how they are read and written. The program runs on binary floating-point
numbers; the same definitions, applied to exact numbers, say what is computed.
-/

namespace Fluxion

/-- Numbers to calculate with. Every operation has a result; `isFinite` tells the results that are
proper numbers from overflows and undefined values. -/
class Scalar (α : Type) extends Zero α, One α, Add α, Sub α, Mul α, Div α, Neg α, BEq α where
  two : α
  /-- The natural logarithm of ten. -/
  lnTen : α
  pow : α → α → α
  apply : Func → α → α
  isFinite : α → Bool
  isNegative : α → Bool
  /-- A total order of all numbers, in which proper numbers stand by their size. -/
  atMost : α → α → Bool

/-- Numbers that can be read and written. -/
class Numeral (α : Type) where
  /-- The number `digits / 10 ^ places`. -/
  ofDecimal : (digits places : Nat) → α
  /-- The number in positional notation, after a minus sign if it is negative. -/
  text : α → List Char
  /-- Whether the number is an integer of at most `10 ^ 15` in size. -/
  isShortInteger : α → Bool

namespace Numeral

variable {α : Type}

/-- The value of a run of decimal digits. -/
def digitsValue (ds : List Char) : Nat :=
  ds.foldl (fun n d => 10 * n + (d.toNat - '0'.toNat)) 0

/-- The number written as whole digits, and possibly a point and further digits. -/
def ofChars [Numeral α] (cs : List Char) : α :=
  let whole := cs.takeWhile (· != '.')
  let places := (cs.dropWhile (· != '.')).drop 1
  ofDecimal (digitsValue (whole ++ places)) places.length

end Numeral

end Fluxion
