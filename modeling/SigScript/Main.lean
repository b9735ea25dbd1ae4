import SigScript.CommandLine.Outcome
import Std.Time.DateTime

/-!
# The program

Reads the file that the command line asks for, and shows the outcome.  Everything that is shown is
decided by `Request.outcome`, apart from the time in front of log lines and their colour, which
depends on the terminal.
-/

namespace SigScript

/-- A number in decimal with at least `width` digits. -/
def paddedDecimal (width n : Nat) : String :=
  let digits := Numeral.render 10 n
  String.ofList (List.replicate (width - digits.length) '0' ++ digits)

/-- A time as it stands in front of log lines, to the millisecond. -/
def timeStamp (moment : Std.Time.PlainDateTime) : String :=
  let date := moment.date
  let time := moment.time
  paddedDecimal 4 date.year.toInt.toNat ++ "-" ++ paddedDecimal 2 date.month.val.toNat ++ "-" ++
    paddedDecimal 2 date.day.val.toNat ++ " " ++ paddedDecimal 2 time.hour.val.toNat ++ ":" ++
    paddedDecimal 2 time.minute.val.toNat ++ ":" ++ paddedDecimal 2 time.second.val.toNat ++ "." ++
    paddedDecimal 3 (time.nanosecond.val.toNat / 1000000)

/-- The time now. -/
def currentStamp : IO String := do
  let now ← Std.Time.Timestamp.now
  return timeStamp (.ofWallTime (.ofNanoseconds now.toNanosecondsSinceUnixEpoch))

/-- Whether log lines are coloured: the terminal has a name other than `dumb`, and colours are not
switched off. -/
def hasColour : IO Bool := do
  let terminal ← IO.getEnv "TERM"
  let off ← IO.getEnv "NO_COLOR"
  return off.isNone && terminal.any (· != "dumb")

/-- The code of a failure of the operating system. -/
def failureCode : IO.Error → UInt32
  | .alreadyExists _ n _ | .otherError n _ | .resourceBusy n _ | .resourceVanished n _
  | .unsupportedOperation n _ | .hardwareFault n _ | .unsatisfiedConstraints n _
  | .illegalOperation n _ | .protocolError n _ | .timeExpired n _ | .interrupted _ n _
  | .noFileOrDirectory _ n _ | .invalidArgument _ n _ | .permissionDenied _ n _
  | .resourceExhausted _ n _ | .inappropriateType _ n _ | .noSuchThing _ n _ => n
  | .unexpectedEof | .userError _ => 0

/-- The number of a failure.  Some codes are its negative. -/
def failureNumber (e : IO.Error) : Nat :=
  min (failureCode e).toNat (-failureCode e).toNat

/-- The contents of a file. -/
def readFile (path : String) : IO (Except ReadError Bytes) := do
  try
    return .ok (← IO.FS.readBinFile path).toList
  catch e =>
    return .error (.ofNumber (failureNumber e))

/-- Shows an outcome. -/
def display (outcome : Outcome) : IO Unit := do
  let coloured ← hasColour
  for record in outcome.records do
    let stamp? ← if outcome.timestamps then some <$> currentStamp else pure none
    IO.eprint (if coloured then record.colouredLine stamp? else record.line stamp?)
  if outcome.showsUsage then IO.eprint usage
  IO.print outcome.output

end SigScript

def main (arguments : List String) : IO UInt32 := do
  let request := SigScript.Request.ofArguments arguments
  let contents ←
    match request with
    | .run path _ => SigScript.readFile path
    | _ => pure (.error .notFound)
  let outcome := request.outcome fun _ => contents
  SigScript.display outcome
  return outcome.exitCode
