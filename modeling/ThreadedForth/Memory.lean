import Std.Data.ExtTreeMap
import ThreadedForth.Cell

/-!
# Bytes by address

A memory gives a byte for every address, and all but finitely many of them are zero. Only the
nonzero bytes are stored, so a large empty space costs nothing and two memories that read the same
everywhere are equal. A cell occupies eight consecutive bytes, least significant first.
-/

namespace ThreadedForth

/-- A byte for every address, zero outside a finite set. -/
structure Memory where
  bytes : Std.ExtTreeMap Nat UInt8 compare
  stored_ne_zero : ∀ address : Nat, bytes[address]? ≠ some 0

namespace Memory

/-- The memory that is zero everywhere. -/
def zero : Memory := ⟨∅, by simp⟩

/-- The byte at an address. -/
def get (m : Memory) (address : Nat) : UInt8 := m.bytes.getD address 0

/-- Replace the byte at an address. -/
def set (m : Memory) (address : Nat) (b : UInt8) : Memory :=
  if h : b = 0 then
    ⟨m.bytes.erase address, by
      intro other
      rw [Std.ExtTreeMap.getElem?_erase]
      split
      · simp
      · exact m.stored_ne_zero other⟩
  else
    ⟨m.bytes.insert address b, by
      intro other
      rw [Std.ExtTreeMap.getElem?_insert]
      split
      · simpa using h
      · exact m.stored_ne_zero other⟩

/-- Memories that read the same at every address are equal. -/
@[ext]
theorem ext {m n : Memory} (h : ∀ address, m.get address = n.get address) : m = n := by
  suffices m.bytes = n.bytes by cases m; cases n; simpa using this
  apply Std.ExtTreeMap.ext_getElem?
  intro address
  have hm := m.stored_ne_zero address
  have hn := n.stored_ne_zero address
  have := h address
  simp only [get, Std.ExtTreeMap.getD_eq_getD_getElem?] at this
  cases hm' : m.bytes[address]? <;> cases hn' : n.bytes[address]? <;> simp_all

/-- Every byte of the zero memory is zero. -/
@[simp]
theorem get_zero (address : Nat) : zero.get address = 0 := by
  simp [get, zero]

/-- Replacing a byte changes what is read at its address and nowhere else. -/
theorem get_set (m : Memory) (address : Nat) (b : UInt8) (other : Nat) :
    (m.set address b).get other = if address = other then b else m.get other := by
  unfold set
  split
  · next h => simp [get, Std.ExtTreeMap.getD_erase, h]
  · simp [get, Std.ExtTreeMap.getD_insert]

/-- The bytes of a range. -/
def read (m : Memory) (address length : Nat) : List UInt8 :=
  (List.range' address length).map m.get

/-- Replace the bytes of a range. -/
def write (m : Memory) (address : Nat) : List UInt8 → Memory
  | [] => m
  | b :: rest => (m.set address b).write (address + 1) rest

/-- The cell at an address. -/
def getCell (m : Memory) (address : Nat) : Cell := Cell.ofBytes (m.read address cellSize)

/-- Replace the cell at an address. -/
def setCell (m : Memory) (address : Nat) (x : Cell) : Memory := m.write address x.toBytes

/-- A range has as many bytes as asked for. -/
@[simp]
theorem length_read (m : Memory) (address length : Nat) :
    (m.read address length).length = length := by
  simp [read]

/-- Writing a range puts its bytes at their addresses and keeps every other byte. -/
theorem get_write (m : Memory) (address : Nat) (bytes : List UInt8) (other : Nat) :
    (m.write address bytes).get other =
      if address ≤ other then (bytes[other - address]?).getD (m.get other) else m.get other := by
  induction bytes generalizing m address with
  | nil => simp [write]
  | cons b rest ih =>
      rw [write, ih, get_set]
      grind

/-- The first of two runs of bytes that have been written is read from where they start. -/
theorem read_write_append (m : Memory) (address : Nat) (left right : List UInt8) :
    (m.write address (left ++ right)).read address left.length = left := by
  apply List.ext_getElem (by simp)
  intro place _ hplace
  simp [read, get_write, hplace, List.getElem?_append_left]

/-- What has been written to a range is read from it. -/
theorem read_write (m : Memory) (address : Nat) (bytes : List UInt8) :
    (m.write address bytes).read address bytes.length = bytes := by
  simpa using m.read_write_append address bytes []

/-- A cell that has been written is read back. -/
theorem getCell_setCell (m : Memory) (address : Nat) (x : Cell) :
    (m.setCell address x).getCell address = x := by
  rw [getCell, setCell, ← Cell.length_toBytes x, read_write, Cell.ofBytes_toBytes]

end Memory

end ThreadedForth
