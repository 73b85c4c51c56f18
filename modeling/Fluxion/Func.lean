/-!
# Functions of one argument

The functions that can be applied in an expression, and the names they are known by.
-/

namespace Fluxion

/-- A function of one argument. `log` is the logarithm to base ten. -/
inductive Func where
  | sin
  | cos
  | tan
  | ln
  | log
  | exp
  deriving DecidableEq, Repr, Inhabited

namespace Func

/-- Every function. -/
def all : List Func := [sin, cos, tan, ln, log, exp]

/-- The name that a function is written with. -/
def name : Func → String
  | sin => "sin"
  | cos => "cos"
  | tan => "tan"
  | ln => "ln"
  | log => "log"
  | exp => "exp"

/-- The names that a function is read from: its own name and its other spellings. -/
def names : Func → List String
  | sin => ["sin", "sen"]
  | tan => ["tan", "tg"]
  | f => [f.name]

/-- A text in which the capital letters of ASCII are replaced by small ones. -/
def fold (text : String) : String :=
  String.ofList (text.toList.map Char.toLower)

/-- The function of a name. The letters of ASCII may be capital or small. -/
def ofName? (text : String) : Option Func :=
  all.find? fun f => f.names.contains (fold text)

/-- Every function is read back from its own name. -/
theorem ofName?_name (f : Func) : ofName? f.name = some f := by
  cases f <;> decide +kernel

end Func

end Fluxion
