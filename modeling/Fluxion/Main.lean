import Fluxion.Session

/-!
# The command line

With arguments, the first is differentiated, with respect to the second, to the order that the third
tells. Without arguments, the lines of the standard input are handled in one session, as far as they
can be read. Faults are reported on the standard error, and make the exit status one.
-/

namespace Fluxion

/-- The lines of a report on a fault of the given text: its place, its labels, and what can be done.
-/
def reportLines (text : String) (fault : Fault) : List String :=
  let place := (fault.location? text).toList.map fun location => s!"   at input:{location}"
  let labels := (fault.cause.labels.take fault.spans.length).map fun label => s!"   {label}"
  let help := fault.cause.help?.toList.map fun help => s!"   Help: {help}"
  place ++ labels ++ help

/-- What is reported for a line beside the error itself. -/
def Response.details : Response → List String
  | .failed expression failure => reportLines expression failure.fault
  | .refused line (.failed failure) => reportLines line failure.fault
  | _ => []

/-- Prints what comes of a line. -/
def report (r : Response) : IO Unit := do
  for line in r.output do
    IO.println line
  for error in r.error?.toList do
    IO.eprintln error
  for line in r.details do
    IO.eprintln line

/-- Reads the bytes of a stream up to the end of a line, after those that were read before. -/
partial def readLine (stream : IO.FS.Stream) (before : ByteArray) : IO ByteArray := do
  let byte ← stream.read 1
  let line := before ++ byte
  if byte.isEmpty || byte.data[0]? == some 0x0A then
    pure line
  else
    readLine stream line

/-- Reads the next line of a stream, if there is one. -/
def nextLine? (stream : IO.FS.Stream) : IO (Option InputLine) := do
  try
    pure (inputLines (← readLine stream .empty)).head?
  catch failure =>
    pure (some (.unread (.device (toString failure))))

/-- Handles the lines of a stream. -/
partial def serve (stream : IO.FS.Stream) (batch : Batch) : IO Bool := do
  match ← nextLine? stream with
  | none => pure batch.succeeded
  | some line =>
    let (batch', outcome) := batch.next line
    for response in outcome.toList do
      report response
    if line.isText then
      serve stream batch'
    else
      pure batch'.succeeded

end Fluxion

/-- The command line. -/
def main (args : List String) : IO UInt32 := do
  match args with
  | expression :: rest =>
    let response := Fluxion.Session.handleArguments expression rest
    Fluxion.report response
    pure (Fluxion.exitStatus response.succeeded)
  | [] => Fluxion.exitStatus <$> Fluxion.serve (← IO.getStdin) {}
