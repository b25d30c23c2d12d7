import ThreadedForth.Cell

/-!
# Decimal numerals

A numeral is an optional sign followed by one or more decimal digits. A token is read as a
two's-complement number first and, where that fails, as an unsigned one. Either reading takes the
digits one at a time and fails as soon as the number leaves its range.
-/

namespace ThreadedForth.Numeral

/-- The sign of a numeral. -/
inductive Sign where
  | plus
  | minus

/-- The number of a given sign and magnitude. -/
def Sign.apply : Sign → Int → Int
  | .plus, n => n
  | .minus, n => -n

/-- The numbers that a reading can give, zero among them. -/
structure Range where
  least : Int
  greatest : Int
  least_le : least ≤ 0
  le_greatest : 0 ≤ greatest

namespace Range

/-- The two's-complement numbers of a cell. -/
def signed : Range := ⟨-0x8000000000000000, 0x7FFFFFFFFFFFFFFF, by decide, by decide⟩

/-- The unsigned numbers of a cell. -/
def unsigned : Range := ⟨0, 0xFFFFFFFFFFFFFFFF, by decide, by decide⟩

/-- A number, unless it is out of range. -/
def check (range : Range) (z : Int) : Option Int :=
  if range.least ≤ z ∧ z ≤ range.greatest then some z else none

/-- Append a digit to a number. Neither the shifted number nor the sum may be out of range. -/
def append? (range : Range) (sign : Sign) (z : Int) (c : Char) : Option Int :=
  if c.isDigit then do
    let shifted ← range.check (10 * z)
    range.check (shifted + sign.apply (c.toNat - '0'.toNat : Nat))
  else none

/-- The number that one or more digits denote with a sign. -/
def digits? (range : Range) (sign : Sign) (digits : List Char) : Option Int :=
  if digits.isEmpty then none else digits.foldlM (range.append? sign) 0

/-- The number that a numeral denotes. A minus sign is accepted where there are negative numbers. -/
def read? (range : Range) : List Char → Option Int
  | '+' :: digits => range.digits? .plus digits
  | '-' :: digits => if range.least < 0 then range.digits? .minus digits else none
  | digits => range.digits? .plus digits

end Range

/-- The cell that a numeral denotes as a two's-complement number. -/
def readSigned? (token : String) : Option Cell :=
  (Range.signed.read? token.toList).map fun z => Cell.ofSigned (Int64.ofInt z)

/-- The cell that a numeral denotes as an unsigned number. -/
def readUnsigned? (token : String) : Option Cell :=
  (Range.unsigned.read? token.toList).map fun z => UInt64.ofNat z.toNat

/-- The cell that a numeral denotes. -/
def read? (token : String) : Option Cell := (readSigned? token).or (readUnsigned? token)

end ThreadedForth.Numeral
