import SigScript.Digest.Algorithm
import SigScript.Log

/-!
# Arguments

The first argument is the path of a script, or asks for help.  The others are options; they are read
from left to right, and where two options speak about the same setting the last one wins.
-/

namespace SigScript

/-- What the options of a command line choose. -/
structure Settings where
  /-- Log records below the threshold are dropped. -/
  threshold : Level := .info
  /-- Whether the lines of the log start with the time. -/
  timestamps : Bool := true
  /-- The hash function of the script. -/
  hash : HashAlgorithm := default
  deriving DecidableEq, Repr

/-- What is wrong with an option. -/
inductive ArgumentError where
  /-- The option for a hash function is the last argument. -/
  | missingHash
  /-- There is no hash function of that name. -/
  | unknownHash (name : String)
  /-- There is no such option. -/
  | unknownArgument (argument : String)
  deriving DecidableEq, Repr

/-- The text shown for a wrong option. -/
def ArgumentError.message : ArgumentError → String
  | .missingHash => "--hash requires an argument"
  | .unknownHash name => "Unknown hash '" ++ name ++ "'"
  | .unknownArgument argument => "Unknown argument: " ++ argument

/-- The names of hash functions on a command line. -/
def hashNames : List (String × HashAlgorithm) :=
  [("lsh256", .lsh256 256), ("lsh224", .lsh256 224), ("sha256", .sha256), ("sha3-256", .sha3)]

namespace Settings

/-- The settings after some options, or the settings at the first wrong option and what is wrong with
it. -/
def read (settings : Settings) : List String → Except (Settings × ArgumentError) Settings
  | [] => .ok settings
  | argument :: rest =>
    if argument = "--verbose" ∨ argument = "-v" then read { settings with threshold := .debug } rest
    else if argument = "--no-timestamp" then read { settings with timestamps := false } rest
    else if argument = "--hash" then
      match rest with
      | [] => .error (settings, .missingHash)
      | name :: rest =>
        match hashNames.lookup name with
        | some hash => read { settings with hash := hash } rest
        | none => .error (settings, .unknownHash name)
    else .error (settings, .unknownArgument argument)

end Settings

/-- What a command line asks for. -/
inductive Request where
  /-- There are no arguments. -/
  | nothing
  /-- To be told about the usage. -/
  | help
  /-- Something that cannot be done; the settings are those of the options before. -/
  | invalid (settings : Settings) (error : ArgumentError)
  /-- To run a script. -/
  | run (path : String) (settings : Settings)
  deriving DecidableEq, Repr

/-- What the arguments of a command line ask for. -/
def Request.ofArguments : List String → Request
  | [] => .nothing
  | first :: options =>
    if first = "--help" ∨ first = "-h" then .help
    else
      match Settings.read {} options with
      | .ok settings => .run first settings
      | .error (settings, error) => .invalid settings error

end SigScript
