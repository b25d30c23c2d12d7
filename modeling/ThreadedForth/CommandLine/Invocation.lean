import ThreadedForth.CommandLine.Report

/-!
# The arguments of the program

An invocation names a command and may set the capacities of the session. Options may stand before
and after the command, as `--name value` or `--name=value`; after a lone `--` every word is an
argument of the session. A word that starts with a minus sign is an option, unless a number follows
the sign or nothing at all.
-/

namespace ThreadedForth.CommandLine

/-- What the program is asked to do. -/
inductive Command where
  | words
  | run (tokens arguments : List String)

/-- A command with the capacities of its session. -/
structure Invocation where
  config : Config
  command : Command

/-- The words of an invocation sorted by their role, with the options that have been given since the
command was named. -/
structure Draft where
  config : Config := {}
  given : List String := []
  positional : List String := []
  arguments : List String := []

/-- Set the capacity that an option names. -/
def setCapacity (config : Config) (option : String) (value : Nat) : Except String Config :=
  match option with
  | "--data-space" => .ok { config with dataSpace := value }
  | "--data-stack" => .ok { config with dataStack := value }
  | "--return-stack" => .ok { config with returnStack := value }
  | "--dictionary" => .ok { config with dictionary := value }
  | "--input-buffer" => .ok { config with inputBuffer := value }
  | _ => .error ("unexpected argument '" ++ option ++ "' found")

/-- Read the value of an option and set the capacity it names. No option may be given twice in one
place. -/
def applyOption (draft : Draft) (option value : String) : Except String Draft := do
  if draft.given.contains option then
    .error ("the argument '" ++ option ++ "' cannot be used multiple times")
  else
    match Numeral.readUnsigned? value with
    | some x =>
        return { draft with
          config := ← setCapacity draft.config option x.toNat, given := option :: draft.given }
    | none => .error ("invalid value '" ++ value ++ "' for '" ++ option ++ "'")

/-- Split an option at its first equals sign. -/
def splitOption (word : String) : String × Option String :=
  match word.toList.span (· != '=') with
  | (option, _ :: value) => (String.ofList option, some (String.ofList value))
  | (_, []) => (word, none)

/-- Whether digits may have a minus sign in front of them without being taken for an option. A
fraction and an exponent may follow them. -/
def isNumber (digits : List Char) : Bool :=
  let (mantissa, exponent) := digits.span (· != 'e')
  mantissa.head? != some '.' && mantissa.count '.' ≤ 1 &&
  mantissa.all (fun c => c.isDigit || c == '.') &&
    match exponent with
    | [] => true
    | _ :: power => !mantissa.isEmpty && !power.isEmpty && power.all Char.isDigit

/-- Whether a word is taken for an option because of its first character. -/
def isOption (word : String) : Bool :=
  match word.toList with
  | '-' :: digits => !isNumber digits
  | _ => false

/-- Take a word for a command or a token. -/
def Draft.place (draft : Draft) (word : String) : Draft :=
  { draft with
    given := if draft.positional.isEmpty then [] else draft.given
    positional := draft.positional ++ [word] }

/-- Sort the words of an invocation by their role. -/
def sort (draft : Draft) : List String → Except String Draft
  | [] => .ok draft
  | "--" :: rest => .ok { draft with arguments := rest }
  | word :: rest =>
      if isOption word then
        match splitOption word, rest with
        | (option, some value), rest => do sort (← applyOption draft option value) rest
        | (option, none), value :: rest => do sort (← applyOption draft option value) rest
        | (option, none), [] => do
            let _ ← setCapacity draft.config option 0
            .error ("a value is required for '" ++ option ++ "'")
      else sort (draft.place word) rest

/-- The command that the sorted words name. -/
def Draft.invocation (draft : Draft) : Except String Invocation :=
  match draft.positional with
  | ["words"] => .ok ⟨draft.config, .words⟩
  | "run" :: token :: tokens => .ok ⟨draft.config, .run (token :: tokens) draft.arguments⟩
  | ["run"] => .error "the command 'run' needs at least one token"
  | _ => .error "expected the command 'words' or 'run'"

/-- What a program that is invoked in a wrong way leaves behind. -/
def usageReport (message : String) : Report := ⟨2, [], [], "error: " ++ message ++ "\n", 0⟩

/-- Read the program's arguments, or tell what the program leaves behind without them. -/
def parse (words : List String) : Except Report Invocation :=
  (sort {} words >>= Draft.invocation).mapError usageReport

/-- Carry out an invocation. -/
def Invocation.report (invocation : Invocation) (input : Input) (clock : Clock) : Option Report :=
  match invocation.command with
  | .words => CommandLine.words invocation.config clock
  | .run tokens arguments => CommandLine.run invocation.config tokens arguments input clock

/-- Read the program's arguments in a given way, and carry out what they ask for. -/
def start (read : List String → Except Report Invocation) (words : List String) (input : Input)
    (clock : Clock) : Option Report :=
  match read words with
  | .error report => some report
  | .ok invocation => invocation.report input clock

/-- Whether a program reads its input: on one that fails at once, it then ends with a fault. -/
def readsInput (program : Input → Option Report) : Bool :=
  match program { pending := [], failure := some "" } with
  | some report => report.diagnostics == diagnostics (some (.halted (.fault (.io ""))))
  | none => false

end ThreadedForth.CommandLine
