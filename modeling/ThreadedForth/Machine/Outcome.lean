import ThreadedForth.Machine.Basic

/-!
# Outcomes

Running code can stop half way, and what was done until then stays done. An outcome therefore
carries the machine in both cases, after success and after a halt.
-/

namespace ThreadedForth

/-- How an operation on the machine ended, with the machine it left. -/
inductive Outcome (α : Type) where
  | done (value : α) (machine : Machine)
  | halted (reason : Halt) (machine : Machine)

namespace Outcome

variable {α : Type}

/-- The machine that an operation left. -/
def machine : Outcome α → Machine
  | .done _ m => m
  | .halted _ m => m

/-- The value of an operation, or the reason why there is none. -/
def result : Outcome α → Except Halt α
  | .done value _ => .ok value
  | .halted reason _ => .error reason

end Outcome

namespace Machine

variable {α : Type}

/-- A change that either happens or is refused without effect. -/
def attempt (m : Machine) (change : Except Fault Machine) : Outcome Unit :=
  match change with
  | .ok changed => .done () changed
  | .error fault => .halted (.fault fault) m

/-- A change with a value that either happens or is refused without effect. -/
def attemptWith (m : Machine) (change : Except Fault (α × Machine)) : Outcome α :=
  match change with
  | .ok (value, changed) => .done value changed
  | .error fault => .halted (.fault fault) m

/-- A reading of the machine that may be refused. -/
def inspect (m : Machine) (reading : Except Fault α) : Outcome α :=
  match reading with
  | .ok value => .done value m
  | .error fault => .halted (.fault fault) m

end Machine

end ThreadedForth
