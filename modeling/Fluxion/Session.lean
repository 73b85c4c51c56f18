import Fluxion.Derivation
import Fluxion.Fault.Message
import Fluxion.Scalar.Binary64
import Fluxion.Session.Input

/-!
# Sessions

A session remembers the variable, the order and the presentation of derivatives from one line to the
next. A line that starts with a colon is a command and changes one of these settings; any other line
is an expression to differentiate. A line that fails changes no setting, and a line that cannot be
read is the last one.
-/

namespace Fluxion

/-- What a session remembers. -/
structure Session where
  expression : String := ""
  var : String := "x"
  order : Int := 1
  options : Options := {}
  deriving DecidableEq, Repr, Inhabited

/-- Why a command is refused. -/
inductive CommandFault where
  | missingArgument (name : String)
  | invalidArgument (name arg : String)
  | unknownCommand (name : String)
  | failed (failure : Failure)
  deriving DecidableEq, Repr, Inhabited

/-- What comes of a line. -/
inductive Response where
  /-- A setting was changed; the text confirms it. -/
  | changed (text : String)
  /-- An expression was differentiated. -/
  | derived (derivation : Derivation Float)
  /-- An expression could not be differentiated. -/
  | failed (expression : String) (failure : Failure)
  /-- A command was refused. -/
  | refused (line : String) (fault : CommandFault)
  /-- A line could not be read. -/
  | unread (fault : ReadFault)
  deriving Repr, Inhabited

namespace CommandFault

/-- The message for a command that is refused. -/
def message : CommandFault → String
  | missingArgument name => s!"`:{name}` expects an argument"
  | invalidArgument name arg => s!"invalid argument `{arg}` for `:{name}`"
  | unknownCommand name => s!"unknown command `:{name}`"
  | failed failure => failure.fault.text

/-- The message, introduced as an error. The message of a command that fails like an expression is
introduced in the same way as that of an expression. -/
def report : CommandFault → String
  | failed failure => s!"Error: {failure.fault.cause.message}"
  | fault => s!"error: {fault.message}"

end CommandFault

namespace Response

/-- Whether the line was handled. -/
def succeeded : Response → Bool
  | changed _ | derived _ => true
  | failed _ _ | refused _ _ | unread _ => false

/-- The lines that are printed. -/
def output : Response → List String
  | changed text => [text]
  | derived d => d.steps ++ [d.result]
  | failed _ _ | refused _ _ | unread _ => []

/-- The error that is reported. -/
def error? : Response → Option String
  | failed _ failure => some s!"Error: {failure.fault.cause.message}"
  | refused _ fault => some fault.report
  | unread fault => some fault.message
  | changed _ | derived _ => none

end Response

namespace Session

/-- The derivatives of the expression of the session. -/
def compute (s : Session) : Except Failure (Derivation Float) :=
  Derivation.compute ⟨s.expression, s.var, s.order⟩ s.options

/-- The name and the argument of a command, if it has them. -/
def commandWords (command : String) : Option String × Option String :=
  let words := Text.words ((Text.trim command.toList).dropWhile (· == ':')) |>.map String.ofList
  (words[0]?, words[1]?)

/-- Changes the setting `name` to `arg`, and confirms it. -/
def change (s : Session) (name arg : String) : Except CommandFault (Session × String) :=
  match name, arg with
  | "var", _ => .ok ({ s with var := arg }, s!"variable set to {arg}")
  | "order", _ =>
    match orderOfText arg with
    | .ok order => .ok ({ s with order := order }, s!"order set to {order}")
    | .error failure => .error (.failed failure)
  | "style", "caret" =>
    .ok ({ s with options.exponentStyle := .caret }, "exponents are written as x^2")
  | "style", "superscript" =>
    .ok ({ s with options.exponentStyle := .raised }, "exponents are written as x²")
  | "steps", "on" => .ok ({ s with options.steps := true }, "steps are shown")
  | "steps", "off" => .ok ({ s with options.steps := false }, "steps are hidden")
  | "style", _ | "steps", _ => .error (.invalidArgument name arg)
  | _, _ => .error (.unknownCommand name)

/-- Carries out a command: a colon, the name of a setting, and its value. -/
def apply (s : Session) (command : String) : Except CommandFault (Session × String) :=
  match commandWords command with
  | (name, none) => .error (.missingArgument (name.getD ""))
  | (name, some arg) => s.change (name.getD "") arg

/-- Whether a line is a command. -/
def isCommand (line : String) : Bool :=
  (Text.trimStart line.toList).head? == some ':'

/-- Whether a line holds nothing. -/
def isBlank (line : String) : Bool :=
  (Text.trim line.toList).isEmpty

/-- Differentiates the expression of the session. -/
def respond (s : Session) : Response :=
  match s.compute with
  | .ok derivation => .derived derivation
  | .error failure => .failed s.expression failure

/-- Handles a line. -/
def handle (s : Session) (line : String) : Session × Response :=
  if isCommand line then
    match s.apply line with
    | .ok (s', text) => (s', .changed text)
    | .error fault => (s, .refused line fault)
  else
    let s' := { s with expression := line }
    (s', s'.respond)

end Session

/-- The exit status of the program. -/
def exitStatus (succeeded : Bool) : UInt32 :=
  if succeeded then 0 else 1

/-- Where a batch of lines stands that is handled in one session. -/
structure Batch where
  session : Session := {}
  /-- Whether every line so far was handled. -/
  succeeded : Bool := true
  deriving DecidableEq, Repr, Inhabited

namespace Batch

/-- Handles a line, unless it holds nothing. -/
def next (b : Batch) : InputLine → Batch × Option Response
  | .text line =>
    if Session.isBlank line then
      (b, none)
    else
      let (session, response) := b.session.handle line
      (⟨session, b.succeeded && response.succeeded⟩, some response)
  | .unread fault => ({ b with succeeded := false }, some (.unread fault))

/-- Handles lines one after the other, and none after a line that cannot be read. -/
def run (b : Batch) : List InputLine → Batch × List (Option Response)
  | [] => (b, [])
  | line :: rest =>
    let (b', outcome) := b.next line
    if line.isText then
      let (last, outcomes) := b'.run rest
      (last, outcome :: outcomes)
    else
      (b', [outcome])

end Batch

namespace Session

/-- Handles the lines of an input that hold something. -/
def handleInput (input : ByteArray) : List Response :=
  (Batch.run {} (inputLines input)).2.filterMap id

/-- Handles what is given at once: an expression, and after it possibly a variable and an order. -/
def handleArguments (expression : String) (rest : List String) : Response :=
  let s : Session := { expression := expression, var := rest[0]?.getD "x" }
  match rest[1]? with
  | none => s.respond
  | some raw =>
    match orderOfText raw with
    | .ok order => { s with order := order }.respond
    | .error failure => .failed raw failure

/-- Handles the arguments if there are any, and the lines of the input otherwise. -/
def run (args : List String) (input : ByteArray) : List Response :=
  match args with
  | expression :: rest => [handleArguments expression rest]
  | [] => handleInput input

end Session

end Fluxion
