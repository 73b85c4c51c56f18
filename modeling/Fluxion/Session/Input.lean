import Fluxion.Text.Lines

/-!
# The input of a session

An input is given by its bytes, and read line by line. The bytes of a line need not be those of a
text, and reading may fail on its own account; then there is no text, but a reason for that.
-/

namespace Fluxion

/-- Why a line of an input cannot be read. -/
inductive ReadFault where
  /-- Its bytes are not those of a text in UTF-8. -/
  | notText
  /-- Reading failed, with this message. -/
  | device (message : String)
  deriving DecidableEq, Repr, Inhabited

/-- The message for a line that cannot be read. -/
def ReadFault.message : ReadFault → String
  | notText => "stream did not contain valid UTF-8"
  | device message => message

/-- What is read of a line of an input. -/
inductive InputLine where
  | text (line : String)
  | unread (fault : ReadFault)
  deriving DecidableEq, Repr, Inhabited

namespace InputLine

/-- Whether there is a text. -/
def isText : InputLine → Bool
  | text _ => true
  | unread _ => false

/-- What is read of the bytes of a line. -/
def ofBytes (bytes : List UInt8) : InputLine :=
  match String.fromUTF8? bytes.toByteArray with
  | some line => text line
  | none => unread .notText

end InputLine

/-- The lines of an input. -/
def inputLines (input : ByteArray) : List InputLine :=
  (Text.byteLines input.data.toList).map InputLine.ofBytes

/-- A text is given as an input by its bytes in UTF-8. -/
instance coeUtf8 : Coe String ByteArray where
  coe := String.toUTF8

end Fluxion
