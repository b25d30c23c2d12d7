import ThreadedForth.Machine.Outcome

/-!
# Words on the console

Writing and line input. These words may halt after bytes have been accepted or consumed; apart from
that a halt leaves the machine as it was, since operands are removed only after the console has
answered.
-/

namespace ThreadedForth.Machine

/-- Write bytes, and on success go on with the change that belongs to the word. -/
def writeThen (m : Machine) (bytes : List UInt8) (next : Machine → Outcome Unit) : Outcome Unit :=
  match m.console.output.write bytes with
  | (.ok (), output) => next { m with console := { m.console with output := output } }
  | (.error message, output) =>
      .halted (.fault (.io message)) { m with console := { m.console with output := output } }

/-- Write the low byte of a cell. `( x -- )` -/
def emitWord (m : Machine) : Outcome Unit :=
  match m.data.pop with
  | .error fault => .halted (.fault fault) m
  | .ok (x, data) => m.writeThen [x.toUInt8] fun n => .done () { n with data := data }

/-- Write a range of bytes. `( address length -- )` -/
def typeWord (m : Machine) : Outcome Unit :=
  let operands : Except Fault (List UInt8 × Stack .data) := do
    let (address, length, data) ← m.data.popPair
    return (← m.space.fetchBytes address length.toNat, data)
  match operands with
  | .error fault => .halted (.fault fault) m
  | .ok (bytes, data) => m.writeThen bytes fun n => .done () { n with data := data }

/-- Write a newline. `( -- )` -/
def newlineWord (m : Machine) : Outcome Unit := m.writeThen [newline] (.done ())

/-- Write the names of all definitions, newest first, and then a newline. `( -- )` -/
def wordsWord (m : Machine) : Outcome Unit :=
  m.writeThen (Name.bytes (" ".intercalate m.dictionary.names)) newlineWord

/-- Push the address of the cell that holds the parse offset. `( -- address )` -/
def toInWord (m : Machine) : Except Fault Machine := m.push (UInt64.ofNat toInAddress)

/-- Push address and length of the current line. `( -- address length )` -/
def sourceWord (m : Machine) : Except Fault Machine := do
  return { m with data := ← m.data.pushAll [UInt64.ofNat inputAddress, UInt64.ofNat m.lineLength] }

/-- Deliver the accepted output. -/
def flush (m : Machine) : Except Fault Unit :=
  match m.console.output.flush with
  | .ok () => .ok ()
  | .error message => .error (.io message)

/-- Note in the log that a line does not fit the input buffer, if so. -/
def logLine (m : Machine) (line : List UInt8) : Machine :=
  let entry := LogEntry.ofLine? m.config.inputBuffer line
  { m with console := { m.console with log := m.console.log ++ entry.toList } }

/-- Make the given bytes the current line, as far as they fit the input buffer, and parse it from
its start. -/
def acceptLine (m : Machine) (line : List UInt8) : Machine :=
  let kept := line.take m.config.inputBuffer
  let space := (m.space.setBytes inputAddress kept).setCell toInAddress 0
  { m.logLine line with space := space, lineLength := kept.length }

/-- Read the next line into the input buffer and tell whether there was one. `( -- flag )` -/
def refillWord (m : Machine) : Outcome Unit :=
  let ready : Except Fault Unit := do
    m.data.requireRoom 1
    m.flush
  match ready with
  | .error fault => .halted (.fault fault) m
  | .ok () =>
      match m.console.input.readLine with
      | (.error message, input) =>
          .halted (.fault (.io message)) { m with console := { m.console with input := input } }
      | (.ok line, input) =>
          let n := { m with console := { m.console with input := input } }
          if line.isEmpty then n.attempt (n.push (Cell.ofFlag false))
          else n.attempt ((n.acceptLine (Input.trimLine line)).push (Cell.ofFlag true))

end ThreadedForth.Machine
