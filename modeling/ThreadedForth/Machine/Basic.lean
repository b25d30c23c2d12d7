import ThreadedForth.Clock
import ThreadedForth.Config
import ThreadedForth.Console
import ThreadedForth.DataSpace
import ThreadedForth.Dictionary
import ThreadedForth.Stack

/-!
# The machine and its building operations

The state of a session, how a session starts, and the operations by which a host extends it.
Building operations either give the changed machine or a fault; as they give no machine with a
fault, a refused operation has no effect.
-/

namespace ThreadedForth

/-- A range of bytes in data space. -/
structure Span where
  address : Nat
  length : Nat

/-- The whole state of a session. The cursor is the address of the next cell of threaded code, the
current token that of the word invoked last, and the line length that of the line in the input
buffer. -/
structure Machine where
  config : Config
  arguments : List String
  data : Stack .data
  returns : Stack .returns
  space : DataSpace
  dictionary : Dictionary
  cursor : Option Cell
  current : Option Nat
  lineLength : Nat
  spans : List Span
  console : Console
  clock : Clock

/-- The reasons for which a session cannot start. -/
inductive BootError where
  | config (error : ConfigError)
  | reset (fault : Fault)

/-- The text that explains why a session cannot start. -/
def BootError.message : BootError → String
  | .config error => "invalid configuration: " ++ error.message
  | .reset fault => "reset failed: " ++ fault.message

namespace Machine

/-- Lay the arguments one after the other into data space, recording where each one lies. -/
def layArguments (s : DataSpace) : List String → Except Fault (DataSpace × List Span)
  | [] => .ok (s, [])
  | argument :: rest => do
      let bytes := Name.bytes argument
      let (t, spans) ← layArguments (← s.append bytes) rest
      return (t, ⟨s.here, bytes.length⟩ :: spans)

/-- Add a definition whose body starts at the next cell boundary, and give its token. -/
def define (m : Machine) (name : String) (action : Action) (immediate : Bool) :
    Except Fault (Nat × Machine) := do
  let definition : Definition :=
    { name := name, action := action, body := alignUp m.space.here, immediate := immediate }
  let (token, dictionary) ← m.dictionary.append definition
  let space ← m.space.align
  return (token, { m with dictionary := dictionary, space := space })

/-- Add the given primitives in order. -/
def definePrimitives (m : Machine) : List Primitive → Except Fault Machine
  | [] => .ok m
  | p :: rest => do
      let (_, added) ← m.define p.name (.primitive p) p.isImmediate
      added.definePrimitives rest

/-- The state at the start of a session: system area, arguments and primitives in place, all else
empty. -/
def fresh (config : Config) (arguments : List String) (console : Console) (clock : Clock) :
    Except Fault Machine := do
  let reserved ← (DataSpace.empty config.dataSpace).reserve config.systemArea
  let (space, spans) ← layArguments reserved arguments
  let bare : Machine :=
    { config := config
      arguments := arguments
      data := .empty config.dataStack
      returns := .empty config.returnStack
      space := space
      dictionary := .empty config.dictionary
      cursor := none
      current := none
      lineLength := 0
      spans := spans
      console := console
      clock := clock }
  bare.definePrimitives Primitive.all

/-- Start a session, if the configuration is valid and has room for arguments and primitives. -/
def boot (config : Config) (arguments : List String) (console : Console) (clock : Clock) :
    Except BootError Machine :=
  match config.validate with
  | .error error => .error (.config error)
  | .ok () =>
      match fresh config arguments console clock with
      | .error fault => .error (.reset fault)
      | .ok m => .ok m

/-- Return to the state at the start of the session, keeping only console and clock. -/
def reset (m : Machine) : Except Fault Machine := fresh m.config m.arguments m.console m.clock

/-- The token of the newest visible definition of a name. -/
def find? (m : Machine) (name : String) : Option Nat := m.dictionary.find? (Name.bytes name)

/-- Put a cell on the data stack. -/
def push (m : Machine) (x : Cell) : Except Fault Machine := do
  return { m with data := ← m.data.push x }

/-- Take the top cell of the data stack. -/
def pop (m : Machine) : Except Fault (Cell × Machine) := do
  let (x, data) ← m.data.pop
  return (x, { m with data := data })

/-- Append a cell at `here`. -/
def compileCell (m : Machine) (x : Cell) : Except Fault Machine := do
  return { m with space := ← m.space.appendCells [x] }

/-- Append code that pushes a cell when it runs: the token of the literal word and the cell
itself. -/
def compileLiteral (m : Machine) (x : Cell) : Except Fault Machine := do
  return { m with space := ← m.space.appendCells [UInt64.ofNat Primitive.literal.token, x] }

/-- The definition that a cell names as an execution token. -/
def resolve (m : Machine) (token : Cell) : Except Fault Definition :=
  match m.dictionary.get? token.toNat with
  | some definition => .ok definition
  | none => .error (.invalidToken token)

/-- Hide a definition from lookup, or show it again. -/
def setHidden (m : Machine) (token : Cell) (hidden : Bool) : Except Fault Machine := do
  let _ ← m.resolve token
  return { m with
    dictionary := m.dictionary.modify token.toNat fun d => { d with hidden := hidden } }

/-- Write the cell at an address. -/
def storeCell (m : Machine) (address x : Cell) : Except Fault Machine := do
  return { m with space := ← m.space.store address x }

/-- The current input line. -/
def source (m : Machine) : List UInt8 := m.space.bytesAt inputAddress m.lineLength

/-- The offset of the parse position in the current line. -/
def toIn (m : Machine) : Cell := m.space.cellAt toInAddress

/-- Whether the machine is compiling. -/
def isCompiling (m : Machine) : Bool := m.space.cellAt stateAddress != 0

end Machine

end ThreadedForth
