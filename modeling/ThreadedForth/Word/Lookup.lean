import ThreadedForth.Machine.Basic

/-!
# Words on the dictionary

Looking up names, reading definitions and changing their flags, and the words that switch the
compilation state.
-/

namespace ThreadedForth.Machine

/-- Look up a counted string. `( address -- 0 | token 1 | token -1 )`

The answer after the token tells whether the definition is immediate. A miss replaces the address,
so only a hit needs room. -/
def findWord (m : Machine) : Except Fault Machine := do
  let (address, data) ← m.data.pop
  let length ← m.space.fetchByte address
  let name ← m.space.fetchBytes (address + 1) length.toNat
  match m.dictionary.find? name with
  | none => return { m with data := ← data.push 0 }
  | some token =>
      let immediate := (m.dictionary.get? token).any (·.immediate)
      let answer := if immediate then 1 else Cell.ofFlag true
      return { m with data := ← data.pushAll [UInt64.ofNat token, answer] }

/-- Push the token of the newest definition. `( -- token )` -/
def latestWord (m : Machine) : Except Fault Machine := do
  m.data.requireRoom 1
  match m.dictionary.latest? with
  | some token => m.push (UInt64.ofNat token)
  | none => .error (.unknownIndex 0 0)

/-- Make the newest definition immediate. `( -- )` -/
def immediateWord (m : Machine) : Except Fault Machine :=
  match m.dictionary.latest? with
  | some token =>
      .ok { m with dictionary := m.dictionary.modify token fun d => { d with immediate := true } }
  | none => .error (.unknownIndex 0 0)

/-- Hide a visible definition and show a hidden one. `( token -- )` -/
def hiddenWord (m : Machine) : Except Fault Machine := do
  let (token, data) ← m.data.pop
  let definition ← m.resolve token
  let toggled ← m.setHidden token !definition.hidden
  return { toggled with data := data }

/-- Replace a token by the address of its definition's body. `( token -- address )` -/
def bodyWord (m : Machine) : Except Fault Machine := do
  let (token, data) ← m.data.pop
  let definition ← m.resolve token
  return { m with data := ← data.push (UInt64.ofNat definition.body) }

/-- Push the address of the cell that holds the compilation state. `( -- address )` -/
def stateWord (m : Machine) : Except Fault Machine := m.push (UInt64.ofNat stateAddress)

/-- Enter or leave the compilation state. `( -- )` -/
def setCompiling (m : Machine) (compiling : Bool) : Except Fault Machine :=
  .ok { m with space := m.space.setCell stateAddress (Cell.ofFlag compiling) }

end ThreadedForth.Machine
