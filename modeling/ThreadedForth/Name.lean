/-!
# Names of words

A name is any text; words are told apart by the bytes of their names, where the letters `A` to `Z`
and `a` to `z` are the same. Bytes outside that range, in particular those of characters beyond
ASCII, must agree exactly.
-/

namespace ThreadedForth.Name

/-- The greatest number of bytes in the name of a definition. -/
def maxLength : Nat := 255

/-- The bytes of a name. -/
def bytes (name : String) : List UInt8 := name.toUTF8.data.toList

/-- Replace an upper-case letter by its lower-case form and keep every other byte. -/
def foldCase (b : UInt8) : UInt8 :=
  if 0x41 ≤ b && b ≤ 0x5A then b + 0x20 else b

/-- Whether two byte strings are the same name. -/
def same (left right : List UInt8) : Bool :=
  left.map foldCase == right.map foldCase

end ThreadedForth.Name
