import Std.Time
import ThreadedForth.CommandLine.Invocation

/-!
# The program

Reads arguments, clock and standard input, leaves the work to the library, and delivers its report.
-/

namespace ThreadedForth.Program

/-- The fields of a calendar date as the machine counts them. -/
def dateTime (t : Std.Time.PlainDateTime) : DateTime :=
  { second := t.second.val.toNat
    minute := t.minute.val.toNat
    hour := t.hour.val.toNat
    day := t.day.val.toNat
    month := t.month.val.toNat
    year := t.year.toInt.toNat }

/-- The current local and universal time; without time zone data, both are universal. -/
def readClock : IO Clock := do
  let now ← Std.Time.Timestamp.now
  let universalTime := Std.Time.PlainDateTime.ofWallTime (.ofTimestamp now .zero)
  let localTime ←
    try Std.Time.PlainDateTime.now
    catch _ => pure universalTime
  return { localTime := dateTime localTime, universalTime := dateTime universalTime }

/-- All bytes that remain on a stream. -/
partial def readAll (stream : IO.FS.Stream) (read : ByteArray) : IO ByteArray := do
  let chunk ← stream.read 65536
  if chunk.isEmpty then return read else readAll stream (read ++ chunk)

/-- Wait for a number of milliseconds. -/
def wait (milliseconds : Nat) : IO Unit := do
  for _ in [0 : milliseconds / 1000] do
    IO.sleep 1000
  IO.sleep (UInt32.ofNat (milliseconds % 1000))

/-- The variable that holds the log's filter. -/
def filterVariable : String := "FORTHKERN_LOG"

/-- The layout of the log: a warning for each entry, unless the filter is set to something
coarser. -/
def readLayout : IO CommandLine.LogLayout := do
  let filter := (← IO.getEnv filterVariable).getD "warn"
  return if ["", "off", "error"].contains filter then fun _ _ => "" else .warnings

/-- Deliver a report and give the exit status. -/
def deliver (report : CommandLine.Report) : IO UInt32 := do
  wait report.waited
  let output ← IO.getStdout
  output.write ⟨report.output.toArray⟩
  output.flush
  IO.eprint (report.standardError (← readLayout))
  return UInt32.ofNat report.status

end ThreadedForth.Program

open ThreadedForth in
/-- Carry out the command given by the arguments. -/
def main (arguments : List String) : IO UInt32 := do
  let clock ← Program.readClock
  let program (input : Input) : Option CommandLine.Report :=
    CommandLine.start CommandLine.parse arguments input clock
  let bytes ←
    if CommandLine.readsInput program then Program.readAll (← IO.getStdin) ByteArray.empty
    else pure ByteArray.empty
  match program { pending := bytes.toList } with
  | some report => Program.deliver report
  | none => return 3
