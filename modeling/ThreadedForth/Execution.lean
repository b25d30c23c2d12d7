import ThreadedForth.Word.Effect

/-!
# Invoking words and running threaded code

A definition is invoked by its token. Invoking a primitive carries out its effect, invoking a nested
definition only enters its code, and the cells of that code are then invoked one step at a time.
Stepping need not end, so the loops take a budget of steps; an exhausted budget is told apart from
every outcome.

How a host program acts on the machine is a parameter throughout.
-/

namespace ThreadedForth

/-- The outcome of running code, or nothing if the budget of steps did not suffice. -/
abbrev Run (α : Type) := Option (Outcome α)

/-- How host programs are carried out. -/
abbrev HostRunner := HostCode → Machine → Run Unit

namespace Machine

/-- Carry out a definition's action, given what the word that invokes a token from the stack
does. -/
def carryOut (host : HostRunner) (executeTop : Machine → Run Unit) (definition : Definition)
    (m : Machine) : Run Unit :=
  match definition.action with
  | .primitive p =>
      match p.effect? with
      | some effect => some (effect m)
      | none => executeTop m
  | .host code => host code m
  | .nested => some (m.attempt (m.call definition.body))

/-- Make a token the current one. -/
def enter (m : Machine) (token : Cell) : Machine := { m with current := some token.toNat }

/-- Invoke the token on top of the data stack. The list is that of the stack's cells: each word that
invokes a token removes it first, so a chain of such words goes down the stack. -/
def invokeTop (host : HostRunner) : List Cell → Machine → Run Unit
  | [], m => some (.halted (.fault (m.data.underflow 1)) m)
  | token :: rest, m =>
      match m.resolve token with
      | .error fault => some (.halted (.fault fault) m)
      | .ok definition =>
          let popped : Machine :=
            { m with data := { m.data with cells := rest, room := m.data.room + 1 } }
          (popped.enter token).carryOut host (invokeTop host rest) definition

/-- Invoke a definition by its token. -/
def invoke (host : HostRunner) (token : Cell) (definition : Definition) (m : Machine) : Run Unit :=
  (m.enter token).carryOut host (fun n => invokeTop host n.data.cells n) definition

/-- Invoke the token in the cell at the cursor, moving the cursor past that cell first. -/
def step (host : HostRunner) (m : Machine) : Run Unit :=
  let fetched : Except Fault (Cell × Cell × Definition) := do
    let (slot, token) ← m.operand
    return (slot, token, ← m.resolve token)
  match fetched with
  | .error fault => some (.halted (.fault fault) m)
  | .ok (slot, token, definition) =>
      { m with cursor := some (slot + 8) }.invoke host token definition

/-- Step until the cursor is a given one. -/
def stepUntil (host : HostRunner) (cursor : Option Cell) : Nat → Machine → Run Unit
  | budget, m =>
      if m.cursor = cursor then some (.done () m)
      else
        match budget with
        | 0 => none
        | budget + 1 =>
            match m.step host with
            | some (.done () n) => n.stepUntil host cursor budget
            | stopped => stopped

/-- Invoke a token and, if that entered threaded code, step until the cursor is back where it
was. -/
def execute (host : HostRunner) (budget : Nat) (token : Cell) (m : Machine) : Run Unit :=
  match m.resolve token with
  | .error fault => some (.halted (.fault fault) m)
  | .ok definition =>
      match m.invoke host token definition with
      | some (.done () n) =>
          if m.returns.depth < n.returns.depth then n.stepUntil host m.cursor budget
          else some (.done () n)
      | stopped => stopped

/-- Step until the machine halts. -/
def run (host : HostRunner) : Nat → Machine → Run Empty
  | 0, _ => none
  | budget + 1, m =>
      match m.step host with
      | some (.done () n) => n.run host budget
      | some (.halted reason n) => some (.halted reason n)
      | none => none

/-- Take a number of steps, stopping at a halt, and count those that succeeded. -/
def steps (host : HostRunner) : Nat → Machine → Option (Nat × Outcome Unit)
  | 0, m => some (0, .done () m)
  | count + 1, m =>
      match m.step host with
      | some (.done () n) => (n.steps host count).map fun (taken, outcome) => (taken + 1, outcome)
      | some (.halted reason n) => some (0, .halted reason n)
      | none => none

end Machine

end ThreadedForth
