/-!
# Cells

A cell is the one kind of number the machine computes with: 64 bits, read as unsigned or as two's
complement. This module holds the readings of a cell (flag, signed value, address to be aligned) and
its eight bytes in little-endian order.
-/

namespace ThreadedForth

/-- One 64-bit word of the machine. -/
abbrev Cell := UInt64

/-- The number of bytes that one cell occupies in data space. -/
def cellSize : Nat := 8

/-- Round an address up to the next multiple of the cell size. -/
def alignUp (address : Nat) : Nat :=
  (address + (cellSize - 1)) / cellSize * cellSize

namespace Cell

/-- A truth value as a cell: all bits set for true, none for false. -/
def ofFlag (flag : Bool) : Cell :=
  if flag then 0xFFFFFFFFFFFFFFFF else 0

/-- The cell read as a two's-complement number. -/
def signed (x : Cell) : Int64 := UInt64.toInt64 x

/-- The cell that holds a two's-complement number. -/
def ofSigned (x : Int64) : Cell := x.toUInt64

/-- Whether the cell is the address of a cell boundary. -/
def isAligned (x : Cell) : Bool := x % 8 == 0

/-- The sum of two cells, unless it does not fit in a cell. -/
def add? (x y : Cell) : Option Cell :=
  if x.toNat + y.toNat < UInt64.size then some (x + y) else none

/-- Round up to a cell boundary by adding what the address lacks, unless the boundary does not fit
in a cell. -/
def alignUp? (x : Cell) : Option Cell :=
  if x % 8 = 0 then some x else x.add? (8 - x % 8)

/-- Round up to a cell boundary by adding and masking; past the last boundary the sum wraps to
zero. -/
def alignWrapping (x : Cell) : Cell := (x + 7) &&& ~~~7

/-- The shift count of 32 bits that a cell stands for: the cell itself if it fits, else the largest
such count. -/
def shiftCount (u : Cell) : UInt32 :=
  if u.toNat < UInt32.size then u.toUInt32 else 0xFFFFFFFF

/-- Shift left, unless the count is that of all bits or more. -/
def shiftLeft? (x : Cell) (count : UInt32) : Option Cell :=
  if count < 64 then some (x <<< count.toUInt64) else none

/-- Shift right, filling with zeros, unless the count is that of all bits or more. -/
def shiftRight? (x : Cell) (count : UInt32) : Option Cell :=
  if count < 64 then some (x >>> count.toUInt64) else none

/-- Shift left by any cell; nothing is left once all bits are shifted out. -/
def shiftLeft (x u : Cell) : Cell := (x.shiftLeft? u.shiftCount).getD 0

/-- Shift right by any cell; nothing is left once all bits are shifted out. -/
def shiftRight (x u : Cell) : Cell := (x.shiftRight? u.shiftCount).getD 0

/-- The signed quotient rounded toward zero; the least number divided by minus one wraps to
itself. -/
def quotient (x y : Cell) : Cell := ofSigned (x.signed / y.signed)

/-- The remainder that belongs to the quotient rounded toward zero; it has the dividend's sign. -/
def remainder (x y : Cell) : Cell := ofSigned (x.signed % y.signed)

/-- The byte of a cell at a place counted from the least significant one. -/
def byte (x : Cell) (place : Nat) : UInt8 := (x >>> UInt64.ofNat (8 * place)).toUInt8

/-- The bytes of a cell, least significant first. -/
def toBytes (x : Cell) : List UInt8 := (List.range cellSize).map x.byte

/-- The cell written by the given bytes, least significant first. -/
def ofBytes : List UInt8 → Cell
  | [] => 0
  | b :: rest => b.toUInt64 + 256 * ofBytes rest

/-- A cell has eight bytes. -/
@[simp]
theorem length_toBytes (x : Cell) : x.toBytes.length = cellSize := by
  simp [toBytes]

/-- A byte of a cell consists of the eight bits at its place. -/
theorem toNat_byte (x : Cell) {place : Nat} (h : place < cellSize) :
    (x.byte place).toNat = (x.toNat >>> (8 * place)) % 256 := by
  have hplace : 8 * place < 64 := by simp only [cellSize] at h; omega
  simp only [byte, UInt64.toNat_toUInt8, UInt64.toNat_shiftRight, UInt64.toNat_ofNat']
  rw [Nat.mod_eq_of_lt (Nat.lt_trans hplace (by decide)), Nat.mod_eq_of_lt hplace]

/-- The bytes of a cell write the cell. -/
theorem ofBytes_toBytes (x : Cell) : ofBytes x.toBytes = x := by
  have hbyte := fun place (h : place < cellSize) => toNat_byte x h
  have hx := UInt64.toNat_lt x
  simp only [cellSize] at hbyte
  rw [← UInt64.toNat_inj]
  simp only [toBytes, cellSize, List.range_succ, List.range_zero, List.nil_append, List.map_cons,
    List.map_nil, List.cons_append, ofBytes, UInt64.toNat_add, UInt64.toNat_mul,
    UInt8.toNat_toUInt64, hbyte 0 (by decide),
    hbyte 1 (by decide), hbyte 2 (by decide), hbyte 3 (by decide), hbyte 4 (by decide),
    hbyte 5 (by decide),
    hbyte 6 (by decide), hbyte 7 (by decide)]
  simp
  omega

end Cell

end ThreadedForth
