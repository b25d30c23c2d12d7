import ThreadedForth.Host
import ThreadedForth.Primitive

/-!
# The dictionary

Definitions are only ever added, and a definition's position is its execution token for good. Lookup
goes from the newest definition to the oldest and skips the hidden ones, so a later definition
shadows an earlier one of the same name without removing it.
-/

namespace ThreadedForth

/-- What a definition does: a built-in word, a host program, or the threaded code at its body. -/
inductive Action where
  | primitive (p : Primitive)
  | host (code : HostCode)
  | nested

/-- One named entry of the dictionary. -/
structure Definition where
  name : String
  action : Action
  body : Nat
  hidden : Bool := false
  immediate : Bool := false

/-- Whether lookup of a byte string may answer with this definition. -/
def Definition.answers (d : Definition) (name : List UInt8) : Bool :=
  !d.hidden && Name.same (Name.bytes d.name) name

/-- A bounded sequence of definitions, oldest first. -/
structure Dictionary where
  entries : Array Definition
  capacity : Nat

namespace Dictionary

/-- The dictionary without definitions. -/
def empty (capacity : Nat) : Dictionary := ⟨#[], capacity⟩

/-- The number of definitions. -/
def size (d : Dictionary) : Nat := d.entries.size

/-- The definition with a given execution token. -/
def get? (d : Dictionary) (token : Nat) : Option Definition := d.entries[token]?

/-- The token of the newest definition. -/
def latest? (d : Dictionary) : Option Nat :=
  match d.size with
  | 0 => none
  | count + 1 => some count

/-- Refuse a name that is too long, and any name when the dictionary is full. -/
def checkAppend (d : Dictionary) (name : String) : Except Fault Unit :=
  if Name.maxLength < name.utf8ByteSize then .error (.nameTooLong name.utf8ByteSize)
  else if d.capacity ≤ d.size then .error (.dictionaryFull d.capacity)
  else .ok ()

/-- Add a definition and give its token. -/
def append (d : Dictionary) (definition : Definition) : Except Fault (Nat × Dictionary) := do
  d.checkAppend definition.name
  return (d.size, { d with entries := d.entries.push definition })

/-- Change the definition with a given token, if there is one. -/
def modify (d : Dictionary) (token : Nat) (f : Definition → Definition) : Dictionary :=
  { d with entries := d.entries.modify token f }

/-- The newest of the first `count` definitions that answers to a name. -/
def findBelow (d : Dictionary) (name : List UInt8) : Nat → Option Nat
  | 0 => none
  | count + 1 =>
      if (d.get? count).any (·.answers name) then some count else d.findBelow name count

/-- Lookup below a position answers with the greatest token there that answers to the name. -/
theorem findBelow_eq_some_iff (d : Dictionary) (name : List UInt8) (count token : Nat) :
    d.findBelow name count = some token ↔
      token < count ∧ (d.get? token).any (·.answers name) = true ∧
        ∀ later, token < later → later < count → (d.get? later).any (·.answers name) = false := by
  induction count with
  | zero => simp [findBelow]
  | succ count ih =>
      rw [findBelow]
      split
      · grind
      · grind

/-- The token of the newest visible definition of a name. -/
def find? (d : Dictionary) (name : List UInt8) : Option Nat := d.findBelow name d.size

/-- The names of all definitions, newest first, hidden ones included. -/
def names (d : Dictionary) : List String := (d.entries.toList.map (·.name)).reverse

end Dictionary

end ThreadedForth
