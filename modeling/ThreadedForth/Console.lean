/-!
# The console

The console connects the machine with a byte input, a byte output and a log. Input and output may
fail: an input can break instead of ending, and an output can stop accepting bytes or refuse to
flush. Reading and writing return the channel as the attempt left it, so bytes that were consumed or
accepted before a failure stay so. The log takes every entry and is never read by the machine.
-/

namespace ThreadedForth

/-- The bytes still to be read, and the message with which reading fails once they are used up. -/
structure Input where
  pending : List UInt8
  failure : Option String := none

/-- What a full output does with a write: fail with a message, or accept no byte of it. -/
inductive Refusal where
  | failing (message : String)
  | acceptingNone

/-- The message of a write that could not be completed. -/
def Refusal.message : Refusal → String
  | .failing message => message
  | .acceptingNone => "failed to write whole buffer"

/-- The bytes accepted so far, the room left, and the ways in which the output fails. -/
structure Output where
  written : Array UInt8 := #[]
  room : Option Nat := none
  refusal : Refusal := .acceptingNone
  flushFailure : Option String := none
  discarding : Bool := false

/-- What is noted in the log: a line was longer than the capacity of the input buffer and has been
cut to it. -/
inductive LogEntry where
  | truncated (length capacity : Nat)
deriving DecidableEq

namespace LogEntry

/-- The text of a log entry. -/
def message : LogEntry → String
  | .truncated length capacity =>
      "input line truncated len=" ++ toString length ++ " capacity=" ++ toString capacity

/-- What is noted of a line: nothing if it fits an input buffer of a given capacity. -/
def ofLine? (capacity : Nat) (line : List UInt8) : Option LogEntry :=
  if capacity < line.length then some (.truncated line.length capacity) else none

end LogEntry

/-- The input and output of a machine, and what has been noted in its log. -/
structure Console where
  input : Input
  output : Output
  log : List LogEntry

/-- The byte that ends a line. -/
def newline : UInt8 := 10

/-- The byte that is dropped from the end of a line if it stands directly before the newline. -/
def carriageReturn : UInt8 := 13

namespace Input

/-- Take the bytes up to and including the next newline, or all that remain. At the end nothing is
taken; an input that fails there loses what it took on the way. -/
def readLine (input : Input) : Except String (List UInt8) × Input :=
  let (line, rest) := input.pending.span (· != newline)
  match rest with
  | mark :: rest => (.ok (line ++ [mark]), { input with pending := rest })
  | [] =>
      match input.failure with
      | some message => (.error message, { input with pending := [] })
      | none => (.ok line, { input with pending := [] })

/-- Remove the newline that ends a line, together with a carriage return directly before it. -/
def trimLine (line : List UInt8) : List UInt8 :=
  match line.reverse with
  | mark :: before =>
      if mark = newline then
        match before with
        | last :: kept => if last = carriageReturn then kept.reverse else before.reverse
        | [] => []
      else line
  | [] => []

end Input

namespace Output

/-- Record accepted bytes. -/
def accept (output : Output) (bytes : List UInt8) : Output :=
  if output.discarding then output
  else { output with written := output.written ++ bytes.toArray }

/-- Write all bytes, accepting as many as there is room for. -/
def write (output : Output) (bytes : List UInt8) : Except String Unit × Output :=
  match output.room with
  | none => (.ok (), output.accept bytes)
  | some room =>
      if bytes.length ≤ room then
        (.ok (), { output.accept bytes with room := some (room - bytes.length) })
      else
        (.error output.refusal.message, { output.accept (bytes.take room) with room := some 0 })

/-- Ask that accepted bytes be delivered. -/
def flush (output : Output) : Except String Unit :=
  match output.flushFailure with
  | none => .ok ()
  | some message => .error message

end Output

namespace Console

/-- A console without input that accepts all output and keeps none of it. -/
def null : Console := ⟨{ pending := [] }, { discarding := true }, []⟩

end Console

end ThreadedForth
