import ThreadedForth.Stack

/-!
# Arithmetic and logic

Arithmetic wraps around at 64 bits. A word of this family is given by a function on cells, lifted to
the stack by the number of its operands; division is the only one that can be refused for its
operands.
-/

namespace ThreadedForth

namespace Cell

/-- A comparison of two cells as two's-complement numbers. -/
def less (x y : Cell) : Cell := ofFlag (x.signed < y.signed)

/-- A comparison of two cells as unsigned numbers. -/
def lessUnsigned (x y : Cell) : Cell := ofFlag (x < y)

/-- Whether two cells are equal. -/
def equal (x y : Cell) : Cell := ofFlag (x == y)

/-- Whether two cells differ. -/
def differ (x y : Cell) : Cell := ofFlag (x != y)

end Cell

namespace Stack

variable {kind : StackKind}

/-- Replace the top cell by a function of it. `( x -- f x )` -/
def unary (f : Cell → Cell) (s : Stack kind) : Except Fault (Stack kind) := do
  let (x, rest) ← s.pop
  rest.push (f x)

/-- Replace the two top cells by a function of them. `( x y -- f x y )` -/
def binary (f : Cell → Cell → Cell) (s : Stack kind) : Except Fault (Stack kind) := do
  let (x, y, rest) ← s.popPair
  rest.push (f x y)

/-- Replace dividend and divisor by functions of them, refusing a zero divisor. `( x y -- ... )` -/
def divide (results : Cell → Cell → List Cell) (s : Stack kind) : Except Fault (Stack kind) := do
  let (x, y, rest) ← s.popPair
  if y = 0 then .error .divisionByZero else rest.pushAll (results x y)

end Stack

end ThreadedForth
