import ThreadedForth.Fault
import ThreadedForth.Memory

/-!
# Data space

Data space is a bounded range of bytes that is handed out from the bottom. `here` is the first byte
not yet handed out; it stays strictly below the size, so one byte always remains unused. Addresses
arrive as arbitrary cells and are checked here once; a successful check gives the position as a
natural number.
-/

namespace ThreadedForth

/-- A bounded memory with the position up to which it has been handed out. -/
structure DataSpace where
  size : Nat
  here : Nat
  memory : Memory

/-- Refuse an address that is not on a cell boundary. -/
def requireAligned (address : Cell) : Except Fault Unit :=
  if address.isAligned then .ok () else .error (.unalignedAccess address)

namespace DataSpace

/-- The zeroed data space of a given size. -/
def empty (size : Nat) : DataSpace := ⟨size, 0, .zero⟩

/-- The number of bytes from `here` to the end. -/
def unused (s : DataSpace) : Nat := s.size - s.here

/-- Refuse a data space that has been handed out to its end. -/
def requireHere (s : DataSpace) : Except Fault Unit :=
  if s.size ≤ s.here then .error (.invalidHere s.here s.size) else .ok ()

/-- Refuse a request that would not leave at least one byte unused. -/
def requireSpace (s : DataSpace) (length : Nat) : Except Fault Unit := do
  s.requireHere
  if s.unused - 1 < length then .error (.dataSpaceOverflow length (s.unused - 1)) else .ok ()

/-- The position of a range of bytes that lies inside data space. -/
def byteRange (s : DataSpace) (address : Cell) (length : Nat) : Except Fault Nat :=
  if address.toNat + length ≤ s.size then .ok address.toNat
  else .error (.addressOutOfBounds address length)

/-- The position of a byte that lies inside data space. -/
def byteAddress (s : DataSpace) (address : Cell) : Except Fault Nat := s.byteRange address 1

/-- The position of an aligned cell that lies inside data space; alignment is reported before
bounds. -/
def cellAddress (s : DataSpace) (address : Cell) : Except Fault Nat := do
  requireAligned address
  s.byteRange address cellSize

/-- The cell at a position. -/
def cellAt (s : DataSpace) (position : Nat) : Cell := s.memory.getCell position

/-- Replace the cell at a position. -/
def setCell (s : DataSpace) (position : Nat) (x : Cell) : DataSpace :=
  { s with memory := s.memory.setCell position x }

/-- The byte at a position. -/
def byteAt (s : DataSpace) (position : Nat) : UInt8 := s.memory.get position

/-- Replace the byte at a position. -/
def setByte (s : DataSpace) (position : Nat) (b : UInt8) : DataSpace :=
  { s with memory := s.memory.set position b }

/-- The bytes of a range. -/
def bytesAt (s : DataSpace) (position length : Nat) : List UInt8 := s.memory.read position length

/-- Replace the bytes of a range. -/
def setBytes (s : DataSpace) (position : Nat) (bytes : List UInt8) : DataSpace :=
  { s with memory := s.memory.write position bytes }

/-- Hand out a number of bytes as they are. -/
def reserve (s : DataSpace) (length : Nat) : Except Fault DataSpace := do
  s.requireSpace length
  return { s with here := s.here + length }

/-- Hand out as many bytes as are given and fill them. -/
def append (s : DataSpace) (bytes : List UInt8) : Except Fault DataSpace := do
  let reserved ← s.reserve bytes.length
  return reserved.setBytes s.here bytes

/-- Hand out space for the given cells and fill it; `here` must be on a cell boundary. -/
def appendCells (s : DataSpace) (cells : List Cell) : Except Fault DataSpace := do
  requireAligned (UInt64.ofNat s.here)
  s.append (cells.flatMap Cell.toBytes)

/-- Move `here` up to a cell boundary. -/
def align (s : DataSpace) : Except Fault DataSpace := s.reserve (alignUp s.here - s.here)

/-- Read the cell at an arbitrary address. -/
def fetch (s : DataSpace) (address : Cell) : Except Fault Cell := do
  return s.cellAt (← s.cellAddress address)

/-- Write the cell at an arbitrary address. -/
def store (s : DataSpace) (address x : Cell) : Except Fault DataSpace := do
  return s.setCell (← s.cellAddress address) x

/-- Read the byte at an arbitrary address. -/
def fetchByte (s : DataSpace) (address : Cell) : Except Fault UInt8 := do
  return s.byteAt (← s.byteAddress address)

/-- Write the byte at an arbitrary address. -/
def storeByte (s : DataSpace) (address : Cell) (b : UInt8) : Except Fault DataSpace := do
  return s.setByte (← s.byteAddress address) b

/-- Read a range of bytes at an arbitrary address. -/
def fetchBytes (s : DataSpace) (address : Cell) (length : Nat) : Except Fault (List UInt8) := do
  return s.bytesAt (← s.byteRange address length) length

end DataSpace

end ThreadedForth
