/-!
# Log records

A log record is a message with a level.  Records below a threshold are dropped; the others become
lines, on a terminal with the colour of their level.
-/

namespace SigScript

/-- The level of a log record, least important first. -/
inductive Level where
  | debug
  | info
  | warn
  | error
  deriving DecidableEq, Repr

namespace Level

/-- The word for a level. -/
def name : Level → String
  | debug => "DEBUG"
  | info => "INFO"
  | warn => "WARN"
  | error => "ERROR"

/-- The place of a level in the order of importance. -/
def rank : Level → Nat
  | debug => 0
  | info => 1
  | warn => 2
  | error => 3

instance : LE Level := ⟨fun l m => l.rank ≤ m.rank⟩

instance : LT Level := ⟨fun l m => l.rank < m.rank⟩

instance (l m : Level) : Decidable (l ≤ m) := inferInstanceAs (Decidable (l.rank ≤ m.rank))

instance (l m : Level) : Decidable (l < m) := inferInstanceAs (Decidable (l.rank < m.rank))

/-- The escape sequences that switch a terminal to the look of a level. -/
def style : Level → String
  | debug => "\x1b[36m"
  | info => ""
  | warn => "\x1b[1m\x1b[33m"
  | error => "\x1b[1m\x1b[31m"

end Level

/-- A message with a level. -/
structure Record where
  level : Level
  message : String
  deriving DecidableEq, Repr

namespace Record

/-- Whether a record is important enough for a threshold. -/
def Passes (threshold : Level) (record : Record) : Prop := threshold ≤ record.level

instance (threshold : Level) (record : Record) : Decidable (record.Passes threshold) :=
  inferInstanceAs (Decidable (_ ≤ _))

/-- The escape sequence that takes all looks of a terminal back. -/
def plainStyle : String := "\x1b[0m"

/-- The line of a record, behind a time stamp if there is one. -/
def line (stamp? : Option String) (record : Record) : String :=
  (match stamp? with
    | some stamp => stamp ++ " "
    | none => "") ++
    "[" ++ record.level.name ++ "] " ++ record.message ++ "\n"

/-- The line of a record for a terminal. -/
def colouredLine (stamp? : Option String) (record : Record) : String :=
  plainStyle ++ record.level.style ++ record.line stamp? ++ plainStyle

end Record

end SigScript
