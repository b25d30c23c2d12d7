/-!
# Reading bytes as text

Output is bytes and need not be valid UTF-8. Read as text, every well-formed sequence gives its
character, and every longest piece that begins one without completing it gives one replacement
character, as does every byte that cannot begin a sequence.
-/

namespace ThreadedForth.Utf8

/-- The character that stands for bytes that are no text. -/
def replacement : Char := '\uFFFD'

/-- A sequence that has begun: the bits read so far, the number of bytes still owed, and the range
in which the next one must lie. -/
structure Pending where
  bits : Nat
  owed : Nat
  low : UInt8 := 0x80
  high : UInt8 := 0xBF

/-- Read the first byte of a sequence: the characters it completes and the sequence it begins. -/
def begin (b : UInt8) : List Char × Option Pending :=
  if b < 0x80 then ([Char.ofNat b.toNat], none)
  else if 0xC2 ≤ b ∧ b ≤ 0xDF then ([], some { bits := b.toNat - 0xC0, owed := 1 })
  else if b = 0xE0 then ([], some { bits := 0, owed := 2, low := 0xA0 })
  else if b = 0xED then ([], some { bits := 0xD, owed := 2, high := 0x9F })
  else if 0xE1 ≤ b ∧ b ≤ 0xEF then ([], some { bits := b.toNat - 0xE0, owed := 2 })
  else if b = 0xF0 then ([], some { bits := 0, owed := 3, low := 0x90 })
  else if 0xF1 ≤ b ∧ b ≤ 0xF3 then ([], some { bits := b.toNat - 0xF0, owed := 3 })
  else if b = 0xF4 then ([], some { bits := 4, owed := 3, high := 0x8F })
  else ([replacement], none)

/-- Read one byte: the characters it completes and the sequence that is then pending. -/
def advance (pending : Option Pending) (b : UInt8) : List Char × Option Pending :=
  match pending with
  | none => begin b
  | some p =>
      if p.low ≤ b ∧ b ≤ p.high then
        let bits := p.bits * 64 + (b.toNat - 0x80)
        if p.owed = 1 then ([Char.ofNat bits], none)
        else ([], some { bits := bits, owed := p.owed - 1 })
      else
        let (characters, next) := begin b
        (replacement :: characters, next)

/-- Read bytes from a state between or inside sequences. -/
def decodeFrom (pending : Option Pending) : List UInt8 → List Char
  | [] => if pending.isSome then [replacement] else []
  | b :: rest =>
      let (characters, next) := advance pending b
      characters ++ decodeFrom next rest

/-- Read bytes as text, replacing what is not well formed. -/
def decode (bytes : List UInt8) : String := String.ofList (decodeFrom none bytes)

end ThreadedForth.Utf8
