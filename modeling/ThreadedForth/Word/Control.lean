import ThreadedForth.Machine.Basic

/-!
# Words that move the cursor

The cursor is the address of the next cell of threaded code. Calling a definition saves it on the
return stack, where the all-ones cell stands for an unset cursor. A literal or branch word finds its
operand in the cell at the cursor; a branch offset is counted from that operand cell.
-/

namespace ThreadedForth

/-- The cell that stands for an unset cursor on the return stack. -/
def unsetMark : Cell := 0xFFFFFFFFFFFFFFFF

/-- The cell that saves a cursor on the return stack. -/
def saveCursor (cursor : Option Cell) : Cell := cursor.getD unsetMark

/-- The cursor that a saved cell stands for. -/
def restoreCursor (x : Cell) : Option Cell := if x = unsetMark then none else some x

/-- The target of a branch; a sum that is negative as a two's-complement number is no address. -/
def branchTarget (slot offset : Cell) : Except Fault Cell :=
  let target := slot + offset
  if target.signed < 0 then .error (.addressOutOfBounds target cellSize) else .ok target

namespace Machine

/-- Call the threaded code at an address: save the cursor and go on there. -/
def call (m : Machine) (body : Nat) : Except Fault Machine := do
  return { m with
    returns := ← m.returns.push (saveCursor m.cursor), cursor := some (UInt64.ofNat body) }

/-- Return from a call. `( R: cursor -- )` -/
def exitWord (m : Machine) : Except Fault Machine := do
  let (saved, returns) ← m.returns.pop
  return { m with returns := returns, cursor := restoreCursor saved }

/-- The cursor's address together with the cell found there. -/
def operand (m : Machine) : Except Fault (Cell × Cell) :=
  match m.cursor with
  | none => .error .noInstructions
  | some slot => do return (slot, ← m.space.fetch slot)

/-- Push the operand. `( -- x )` -/
def literalWord (m : Machine) : Except Fault Machine := do
  let (slot, x) ← m.operand
  return { m with data := ← m.data.push x, cursor := some (slot + 8) }

/-- Move the cursor by the operand. `( -- )` -/
def branchWord (m : Machine) : Except Fault Machine := do
  let (slot, offset) ← m.operand
  return { m with cursor := some (← branchTarget slot offset) }

/-- Move the cursor by the operand if the top cell is zero, and past it otherwise. `( x -- )` -/
def zeroBranchWord (m : Machine) : Except Fault Machine := do
  let (x, data) ← m.data.pop
  let (slot, offset) ← m.operand
  let target ← if x = 0 then branchTarget slot offset else .ok (slot + 8)
  return { m with data := data, cursor := some target }

end Machine

end ThreadedForth
