import Fluxion.Text.Blank

/-!
# Lines

A line ends at a line feed, or at a carriage return and a line feed. Bytes have the same lines as the
characters that they encode.
-/

namespace Fluxion.Text

section Members

variable {α : Type} [BEq α]

/-- The line without the return at its end. -/
def dropReturn (ret : α) (line : List α) : List α :=
  if line.getLast? == some ret then line.dropLast else line

/-- The lines of a list. A line ends at a feed, or at a return and a feed; what comes after the last
feed is a line unless it is empty, and keeps a return at its end. -/
def linesOf (ret feed : α) (xs : List α) : List (List α) :=
  let all := pieces (· == feed) xs
  all.dropLast.map (dropReturn ret) ++ (all.getLast?.filter (!·.isEmpty)).toList

end Members

/-- The lines of a text. -/
def lines (cs : List Char) : List (List Char) :=
  linesOf '\r' '\n' cs

/-- The lines of a text that is given by its bytes in UTF-8. -/
def byteLines (bytes : List UInt8) : List (List UInt8) :=
  linesOf 0x0D 0x0A bytes

end Fluxion.Text
