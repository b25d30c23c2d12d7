import ThreadedForth.Machine.Basic

/-!
# Words on data space

Reading, writing and handing out data space. Operands are checked in the order depth, alignment,
bounds or space, and removed only when every check has passed.
-/

namespace ThreadedForth.Machine

/-- Write a cell. `( x address -- )` -/
def storeWord (m : Machine) : Except Fault Machine := do
  let (x, address, data) ← m.data.popPair
  return { m with space := ← m.space.store address x, data := data }

/-- Read a cell. `( address -- x )` -/
def fetchWord (m : Machine) : Except Fault Machine := do
  let (address, data) ← m.data.pop
  return { m with data := ← data.push (← m.space.fetch address) }

/-- Write the low byte of a cell. `( x address -- )` -/
def storeByteWord (m : Machine) : Except Fault Machine := do
  let (x, address, data) ← m.data.popPair
  return { m with space := ← m.space.storeByte address x.toUInt8, data := data }

/-- Read a byte. `( address -- b )` -/
def fetchByteWord (m : Machine) : Except Fault Machine := do
  let (address, data) ← m.data.pop
  return { m with data := ← data.push (← m.space.fetchByte address).toUInt64 }

/-- Push the address of the next byte to be handed out. `( -- address )` -/
def hereWord (m : Machine) : Except Fault Machine := m.push (UInt64.ofNat m.space.here)

/-- Push the number of bytes from there to the end of data space. `( -- n )` -/
def unusedWord (m : Machine) : Except Fault Machine := m.push (UInt64.ofNat m.space.unused)

/-- Hand out a number of bytes. `( n -- )` -/
def allotWord (m : Machine) : Except Fault Machine := do
  let (length, data) ← m.data.pop
  return { m with space := ← m.space.reserve length.toNat, data := data }

/-- Hand out bytes up to a cell boundary. `( -- )` -/
def alignWord (m : Machine) : Except Fault Machine := do
  return { m with space := ← m.space.align }

/-- Hand out a cell and fill it. `( x -- )` -/
def commaWord (m : Machine) : Except Fault Machine := do
  let (x, data) ← m.data.pop
  return { m with space := ← m.space.appendCells [x], data := data }

/-- Hand out a byte and fill it with the low byte of a cell. `( x -- )` -/
def byteCommaWord (m : Machine) : Except Fault Machine := do
  let (x, data) ← m.data.pop
  return { m with space := ← m.space.append [x.toUInt8], data := data }

end ThreadedForth.Machine
