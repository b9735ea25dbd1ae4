import Mathlib
import SigScript.CommandLine.Outcome

/-!
# What a command line shows

The standard output and the exit code of a command line are a function of the text of the script and
of the hash function that the last `--hash` names (`shown_by_source_and_hash`).  The other options
only make a difference to the log.  A list of options is made of options that can be read, up to a
fault if there is one (`Switch.splits`); behind a fault nothing is read any more, and no file is.
-/

namespace SigScript

/-! ### Lists of options -/

/-- An option that can be read.  `v` is the short form of `verbose`. -/
inductive Switch where
  | verbose
  | v
  | noTimestamp
  | hash (name : String) (algorithm : HashAlgorithm)
      (known : hashNames.lookup name = some algorithm)

namespace Switch

/-- The arguments that an option is written with. -/
def words : Switch → List String
  | verbose => ["--verbose"]
  | v => ["-v"]
  | noTimestamp => ["--no-timestamp"]
  | hash name _ _ => ["--hash", name]

/-- The arguments of a list of options. -/
def arguments (switches : List Switch) : List String := switches.flatMap words

/-- The hash function that an option chooses, if it chooses one. -/
def hash? : Switch → Option HashAlgorithm
  | verbose | v | noTimestamp => none
  | hash _ algorithm _ => some algorithm

/-- The hash function that a list of options leads to. -/
def lastHash (switches : List Switch) : HashAlgorithm :=
  (switches.filterMap hash?).getLastD default

/-- The settings after an option. -/
def set (settings : Settings) : Switch → Settings
  | verbose | v => { settings with threshold := .debug }
  | noTimestamp => { settings with timestamps := false }
  | hash _ algorithm _ => { settings with hash := algorithm }

theorem read_words (settings : Settings) (switch : Switch) (rest : List String) :
    settings.read (switch.words ++ rest) = (switch.set settings).read rest := by
  cases switch with
  | verbose => simp [words, set, Settings.read.eq_def settings ("--verbose" :: rest)]
  | v => simp [words, set, Settings.read.eq_def settings ("-v" :: rest)]
  | noTimestamp => simp [words, set, Settings.read.eq_def settings ("--no-timestamp" :: rest)]
  | hash name algorithm known => simp [words, set, Settings.read, known]

theorem read_arguments (settings : Settings) (switches : List Switch) (rest : List String) :
    settings.read (arguments switches ++ rest) = (switches.foldl set settings).read rest := by
  induction switches generalizing settings with
  | nil => rfl
  | cons switch switches ih =>
    rw [arguments, List.flatMap_cons, List.append_assoc, read_words, ← arguments, ih,
      List.foldl_cons]

theorem hash_foldl_set (settings : Settings) (switches : List Switch) :
    (switches.foldl set settings).hash = (switches.filterMap hash?).getLastD settings.hash := by
  induction switches generalizing settings with
  | nil => rfl
  | cons switch switches ih =>
    rw [List.foldl_cons, ih]
    cases switch with
    | verbose => rfl
    | v => rfl
    | noTimestamp => rfl
    | hash name algorithm known => exact List.getLastD_cons.symm

/-- A list of arguments that cannot be read from its first option on. -/
inductive Faulty : List String → Prop
  /-- There is no option of that name. -/
  | unknown (argument : String) (rest : List String)
      (h : argument ∉ ["--verbose", "-v", "--no-timestamp", "--hash"]) :
      Faulty (argument :: rest)
  /-- No hash function is named. -/
  | missing : Faulty ["--hash"]
  /-- There is no hash function of that name. -/
  | misnamed (name : String) (rest : List String) (h : hashNames.lookup name = none) :
      Faulty ("--hash" :: name :: rest)

theorem Faulty.exists_read_eq_error {options : List String} (h : Faulty options)
    (settings : Settings) : ∃ error, settings.read options = .error (settings, error) := by
  cases h with
  | unknown argument rest h =>
    simp only [List.mem_cons, List.not_mem_nil, or_false, not_or] at h
    exact ⟨.unknownArgument argument,
      by simp [Settings.read.eq_def settings (argument :: rest), h]⟩
  | missing => exact ⟨.missingHash, by simp [Settings.read]⟩
  | misnamed name rest h => exact ⟨.unknownHash name, by simp [Settings.read, h]⟩

/-- The arguments are those of options that can be read, up to a fault if there is one. -/
def Splits (options : List String) : Prop :=
  ∃ switches rest, options = arguments switches ++ rest ∧ (rest = [] ∨ Faulty rest)

theorem Splits.here {options : List String} (h : options = [] ∨ Faulty options) :
    Splits options := ⟨[], options, rfl, h⟩

theorem Splits.cons (switch : Switch) {options : List String} (h : Splits options) :
    Splits (switch.words ++ options) := by
  obtain ⟨switches, rest, rfl, hrest⟩ := h
  refine ⟨switch :: switches, rest, ?_, hrest⟩
  rw [arguments, arguments, List.flatMap_cons, List.append_assoc]

/-- Every list of arguments is read to its end or to a fault. -/
theorem splits (settings : Settings) (options : List String) : Splits options := by
  induction settings, options using Settings.read.induct with
  | case1 => exact .here (.inl rfl)
  | case2 settings argument rest h ih =>
    obtain rfl | rfl := h
    · exact .cons .verbose ih
    · exact .cons .v ih
  | case3 settings rest _ ih => exact .cons .noTimestamp ih
  | case4 => exact .here (.inr .missing)
  | case5 settings name rest algorithm known _ _ ih => exact .cons (.hash name algorithm known) ih
  | case6 settings name rest h => exact .here (.inr (.misnamed name rest h))
  | case7 settings argument rest hverbose hstamp hhash =>
    refine .here (.inr (.unknown argument rest ?_))
    simp only [List.mem_cons, List.not_mem_nil, or_false]
    tauto

end Switch

/-! ### Outcomes -/

namespace Outcome

/-- What an outcome shows apart from the log and the usage: the standard output and the exit code. -/
def shown (outcome : Outcome) : String × UInt32 := (outcome.output, outcome.exitCode)

@[simp] theorem shown_logged (settings : Settings) (records : List Record) (outcome : Outcome) :
    (outcome.logged settings records).shown = outcome.shown := rfl

/-- The outcome of a script is that of its run. -/
theorem shown_ofScript (settings : Settings) (path source : String) :
    (ofScript settings path source).shown =
      match Machine.run { hash := settings.hash } (Text.trimmedLines source) with
      | .ok stack => (Stack.text stack ++ "\n", 0)
      | .error _ => ("", 1) := by
  rw [ofScript, Machine.run, ← Machine.trace_snd _ 0, shown_logged]
  cases (Machine.trace { hash := settings.hash } 0 (.running []) (Text.trimmedLines source)).2 with
  | ok stack => rfl
  | error e => rfl

end Outcome

section Respond

variable {path : String} (hpath : path ≠ "--help" ∧ path ≠ "-h")
  (read : String → Except ReadError Bytes)
include hpath

open Switch

theorem Request.ofArguments_cons (options : List String) :
    Request.ofArguments (path :: options) =
      match Settings.read {} options with
      | .ok settings => .run path settings
      | .error (settings, error) => .invalid settings error :=
  if_neg (not_or.2 hpath)

/-- With options that can be read, a text that can be read is run under the last hash function. -/
theorem shown_respond_arguments (switches : List Switch) {source : String}
    (hsource : (read path).bind textOfOctets = .ok source) :
    (respond (path :: arguments switches) read).shown =
      match Machine.run { hash := lastHash switches } (Text.trimmedLines source) with
      | .ok stack => (Stack.text stack ++ "\n", 0)
      | .error _ => ("", 1) := by
  have hread := read_arguments {} switches []
  rw [List.append_nil, Settings.read] at hread
  rw [respond, Request.ofArguments_cons hpath, hread]
  simp only [Request.outcome, hsource, Outcome.shown_ofScript, hash_foldl_set, lastHash]

/-- A fault shows nothing, whatever could be read. -/
theorem shown_respond_faulty (switches : List Switch) {rest : List String} (h : Faulty rest) :
    (respond (path :: (arguments switches ++ rest)) read).shown = ("", 1) := by
  obtain ⟨error, herror⟩ := h.exists_read_eq_error (switches.foldl set {})
  rw [respond, Request.ofArguments_cons hpath, read_arguments, herror]
  rfl

/-- The standard output and the exit code are those of the run of the script under the last hash
function that is named, and LSH-256 when none is; lists of options that lead to one hash function are
not told apart.  Any other list of options has a fault behind some options that can be read, and then
the standard output is empty and the exit code is 1. -/
theorem shown_by_source_and_hash :
    (∀ (switches switches' : List Switch) (source : String),
      (read path).bind textOfOctets = .ok source → lastHash switches = lastHash switches' →
      (respond (path :: arguments switches) read).shown =
        (respond (path :: arguments switches') read).shown ∧
      (respond (path :: arguments switches) read).shown =
        match Machine.run { hash := lastHash switches } (Text.trimmedLines source) with
        | .ok stack => (Stack.text stack ++ "\n", 0)
        | .error _ => ("", 1)) ∧
    (∀ (switches : List Switch) (rest : List String), Faulty rest →
      (respond (path :: (arguments switches ++ rest)) read).shown = ("", 1)) ∧
    ∀ options : List String, (∃ switches, options = arguments switches) ∨
      ∃ switches rest, options = arguments switches ++ rest ∧ Faulty rest := by
  refine ⟨?_, fun switches rest => shown_respond_faulty hpath read switches, ?_⟩
  · intro switches switches' source hsource hhash
    rw [shown_respond_arguments hpath read switches hsource,
      shown_respond_arguments hpath read switches' hsource, hhash]
    exact ⟨rfl, rfl⟩
  · intro options
    obtain ⟨switches, rest, rfl, rfl | hrest⟩ := splits {} options
    · exact .inl ⟨switches, List.append_nil _⟩
    · exact .inr ⟨switches, rest, rfl, hrest⟩

end Respond

/-- The script that pushes 1, with options that the last `--hash` and a fault decide. -/
theorem shown_by_source_and_hash_one :
    (respond ["one", "--hash", "lsh224", "-v", "--hash", "sha256"] fun _ => .ok [0x31]).shown =
      (respond ["one", "--hash", "sha256"] fun _ => .ok [0x31]).shown ∧
    (respond ["one", "--hash", "lsh224", "-v", "--hash", "sha256"] fun _ => .ok [0x31]).shown =
      ("[1]\n", 0) ∧
    (respond ["one", "-v", "--hash", "--no-timestamp"] fun _ => .ok [0x31]).shown = ("", 1) := by
  obtain ⟨hsame, hfaulty, -⟩ := @shown_by_source_and_hash "one" (by decide) fun _ => .ok [0x31]
  have hone : Except.bind (.ok [0x31]) textOfOctets = .ok "1" := by cbv
  obtain ⟨heq, hrun⟩ := hsame [.hash "lsh224" (.lsh256 224) (by decide), .v,
    .hash "sha256" .sha256 (by decide)] [.hash "sha256" .sha256 (by decide)] "1" hone rfl
  exact ⟨heq, hrun.trans (by cbv), hfaulty [.v] _ (.misnamed "--no-timestamp" [] (by decide))⟩

end SigScript
