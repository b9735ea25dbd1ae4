import SigScript.CommandLine.Arguments
import SigScript.CommandLine.Directory
import SigScript.Script.Trace

/-!
# Outcomes

The outcome of a command line holds everything that the program shows: the records of the log, the
usage, the standard output and the exit code.  It is a function of the arguments and of what can be
read (`respond`).  Only the times in the log come from outside.
-/

namespace SigScript

/-- What a command line leads to. -/
structure Outcome where
  /-- The records of the log, those below the threshold left out. -/
  records : List Record := []
  /-- Whether the lines of the log start with the time. -/
  timestamps : Bool := true
  /-- Whether the usage is shown after the log. -/
  showsUsage : Bool := false
  /-- The standard output. -/
  output : String := ""
  exitCode : UInt32
  deriving DecidableEq, Repr

/-- The name that the program is called by. -/
def programName : String := "stack-processor"

/-- The usage of the program. -/
def usage : String :=
  "\n".intercalate
    ["Stack Processor",
      "",
      "USAGE:",
      "    " ++ programName ++ " <program> [OPTIONS]",
      "",
      "ARGS:",
      "    <program>    Script file, one token per line",
      "",
      "OPTIONS:",
      "    -v, --verbose      Log each token and the stack before it runs",
      "    --hash <name>      lsh256 (default), lsh224, sha256 or sha3-256",
      "    --no-timestamp     Omit timestamps from log lines",
      "    -h, --help         Print this help message",
      "",
      "EXAMPLES:",
      "    # Verify a pay-to-public-key-hash script",
      "    " ++ programName ++ " p2pkh.script",
      "",
      "    # Check an OpenSSL signature",
      "    " ++ programName ++ " openssl.script --hash sha256",
      "",
      ""]

namespace Outcome

/-- The text on standard error, with the same time stamp on all lines of the log. -/
def errorText (outcome : Outcome) (coloured : Bool) (stamp : String) : String :=
  let stamp? := if outcome.timestamps then some stamp else none
  let line := if coloured then Record.colouredLine stamp? else Record.line stamp?
  String.join (outcome.records.map line) ++ if outcome.showsUsage then usage else ""

/-- The outcome with log records in front of it, as far as the settings let them through. -/
def logged (settings : Settings) (records : List Record) (outcome : Outcome) : Outcome :=
  { outcome with
    records := records.filter (fun r => r.Passes settings.threshold) ++ outcome.records
    timestamps := settings.timestamps }

/-- The outcome of something that went wrong. -/
def failed (settings : Settings) (message : String) : Outcome :=
  logged settings [⟨.error, message⟩] { exitCode := 1 }

/-- The outcome of a script. -/
def ofScript (settings : Settings) (path source : String) : Outcome :=
  let tokens := Text.trimmedLines source
  let machine : Machine := { hash := settings.hash }
  let (events, result) := machine.trace 0 (.running []) tokens
  let start : Record :=
    ⟨.info, "Running " ++ Numeral.decimal tokens.length ++ " tokens from " ++ path ++ " with " ++
      settings.hash.name⟩
  logged settings (start :: events.map Event.record)
    (match result with
      | .ok stack => { output := Stack.text stack ++ "\n", exitCode := 0 }
      | .error e => failed settings ("Script failed: " ++ e.message))

end Outcome

/-- The text that octets encode. -/
def textOfOctets (octets : Bytes) : Except ReadError String :=
  match String.fromUTF8? ⟨octets.toArray⟩ with
  | some text => .ok text
  | none => .error .notText

/-- The outcome of a request, with a function that reads the contents of files. -/
def Request.outcome (read : String → Except ReadError Bytes) : Request → Outcome
  | nothing => { showsUsage := true, exitCode := 1 }
  | help => { showsUsage := true, exitCode := 0 }
  | invalid settings error =>
    { Outcome.failed settings error.message with
      showsUsage :=
        match error with
        | .unknownArgument _ => true
        | .missingHash | .unknownHash _ => false }
  | run path settings =>
    match (read path).bind textOfOctets with
    | .ok source => Outcome.ofScript settings path source
    | .error e => Outcome.failed settings ("Failed to read " ++ path ++ ": " ++ e.message)

/-- The outcome of a command line. -/
def respond (arguments : List String) (read : String → Except ReadError Bytes) : Outcome :=
  (Request.ofArguments arguments).outcome read

end SigScript
