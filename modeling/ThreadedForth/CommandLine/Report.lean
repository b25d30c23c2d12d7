import ThreadedForth.Numeral
import ThreadedForth.Session

/-!
# Interpreting a command line

The tokens of a command line are interpreted from left to right in a session of their own: a numeral
is pushed and a name is executed. The first token that cannot be carried out ends the session. A
command line adds no definitions, so no token enters threaded code and the interpreter needs no
budget of steps.
-/

namespace ThreadedForth.CommandLine

/-- The name of the program, which is the first argument of every session. -/
def programName : String := "forthkern"

/-- Why interpretation ended before the last token. -/
inductive Stop where
  | unknownWord (word : String)
  | halted (reason : Halt)

/-- What a finished program leaves behind: exit status, standard output, the log, the line that
tells why it ended, and the milliseconds it waited. -/
structure Report where
  status : Nat
  output : List UInt8
  log : List LogEntry
  diagnostics : String
  waited : Nat

/-- How the log is written: the text for the entry with a given number, which is empty where entries
are filtered out. Time stamps and colours are up to the layout. -/
abbrev LogLayout := Nat → LogEntry → String

/-- The layout that shows every entry as a warning. -/
def LogLayout.warnings : LogLayout := fun _ entry => " WARN " ++ entry.message ++ "\n"

/-- The log as it is written, entry by entry. -/
def LogLayout.render (layout : LogLayout) (log : List LogEntry) : String :=
  String.join (log.mapIdx layout)

/-- What the program writes to standard error: the log while it works, and at last why it ended. -/
def Report.standardError (report : Report) (layout : LogLayout) : String :=
  layout.render report.log ++ report.diagnostics

/-- The exit status that tells why interpretation ended. -/
def status : Option Stop → Nat
  | none | some (.halted .bye) => 0
  | some (.unknownWord _) => 1
  | some (.halted (.fault _)) => 3

/-- The line that tells why interpretation ended. -/
def diagnostics : Option Stop → String
  | none | some (.halted .bye) => ""
  | some (.unknownWord word) => "error: unknown word '" ++ word ++ "'\n"
  | some (.halted (.fault fault)) => "fault: " ++ fault.message ++ "\n"

/-- Execute a token in a session without definitions of its own. -/
def executeToken (m : Machine) (token : Nat) : Option (Option Stop × Machine) :=
  match m.execute (HostCode.run 0) 0 (UInt64.ofNat token) with
  | some (.done () n) => some (none, n)
  | some (.halted reason n) => some (some (.halted reason), n)
  | none => none

/-- Push a numeral or execute a name. -/
def interpretToken (m : Machine) (token : String) : Option (Option Stop × Machine) :=
  match Numeral.read? token with
  | some x =>
      match m.push x with
      | .ok n => some (none, n)
      | .error fault => some (some (.halted (.fault fault)), m)
  | none =>
      match m.find? token with
      | some found => executeToken m found
      | none => some (some (.unknownWord token), m)

/-- Interpret tokens from left to right up to the first that stops the session. -/
def interpret (m : Machine) : List String → Option (Option Stop × Machine)
  | [] => some (none, m)
  | token :: rest =>
      match interpretToken m token with
      | some (none, n) => interpret n rest
      | stopped => stopped

/-- Start a session on standard input, let it work, and report how it ended. -/
def report (config : Config) (arguments : List String) (input : Input) (clock : Clock)
    (work : Machine → Option (Option Stop × Machine)) : Option Report :=
  match Machine.boot config (programName :: arguments) ⟨input, {}, []⟩ clock with
  | .error error => some ⟨1, [], [], "error: " ++ error.message ++ "\n", 0⟩
  | .ok m => (work m).map fun (stop, n) =>
      ⟨status stop, n.console.output.written.toList, n.console.log, diagnostics stop,
        n.clock.waited⟩

/-- List the dictionary. -/
def words (config : Config) (clock : Clock) : Option Report :=
  report config [] { pending := [] } clock fun m => executeToken m Primitive.words.token

/-- Interpret tokens with the given arguments and standard input. -/
def run (config : Config) (tokens arguments : List String) (input : Input) (clock : Clock) :
    Option Report :=
  report config arguments input clock fun m => interpret m tokens

end ThreadedForth.CommandLine
