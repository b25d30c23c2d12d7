import ThreadedForth.Word.Console

/-!
# Words on the environment

Program arguments, the clock, waiting, and leaving the session.
-/

namespace ThreadedForth.Machine

/-- Push the number of arguments. `( -- n )` -/
def argumentCountWord (m : Machine) : Except Fault Machine := m.push (UInt64.ofNat m.spans.length)

/-- Replace an index by address and length of that argument. `( n -- address length )` -/
def argumentWord (m : Machine) : Except Fault Machine := do
  let (index, data) ← m.data.pop
  match m.spans[index.toNat]? with
  | some span =>
      return { m with data := ← data.pushAll [UInt64.ofNat span.address, UInt64.ofNat span.length] }
  | none => .error (.unknownIndex index.toNat m.spans.length)

/-- Deliver the accepted output and leave the session. `( -- )` -/
def byeWord (m : Machine) : Outcome Unit :=
  match m.flush with
  | .ok () => .halted .bye m
  | .error fault => .halted (.fault fault) m

/-- Wait for a number of milliseconds. `( n -- )` -/
def waitWord (m : Machine) : Except Fault Machine := do
  let (milliseconds, data) ← m.data.pop
  return { m with
    data := data, clock := { m.clock with waited := m.clock.waited + milliseconds.toNat } }

/-- Push the fields of a date from the second up to the year. `( -- s m h d m y )` -/
def dateWord (time : DateTime) (m : Machine) : Except Fault Machine := do
  return { m with data := ← m.data.pushAll (time.fields.map UInt64.ofNat) }

end ThreadedForth.Machine
