import ThreadedForth.Stack

/-!
# Words that rearrange the stacks

Each word takes the cells it names in its stack effect and pushes the result, so its demands on
depth and room follow from its effect. The data-stack words map one stack to another; the three
words that involve the return stack map the pair of data stack and return stack.
-/

namespace ThreadedForth.Stack

variable {kind : StackKind}

/-- Push the depth as it was before. `( -- n )` -/
def pushDepth (s : Stack kind) : Except Fault (Stack kind) := s.push (UInt64.ofNat s.depth)

/-- Remove the top cell. `( x -- )` -/
def drop (s : Stack kind) : Except Fault (Stack kind) := do
  let (_, rest) ← s.pop
  return rest

/-- Copy the top cell. `( x -- x x )` -/
def dup (s : Stack kind) : Except Fault (Stack kind) := do
  let (x, rest) ← s.pop
  rest.pushAll [x, x]

/-- Copy the second cell to the top. `( x y -- x y x )` -/
def copySecond (s : Stack kind) : Except Fault (Stack kind) := do
  let (x, y, rest) ← s.popPair
  rest.pushAll [x, y, x]

/-- Exchange the two top cells. `( x y -- y x )` -/
def swap (s : Stack kind) : Except Fault (Stack kind) := do
  let (x, y, rest) ← s.popPair
  rest.pushAll [y, x]

/-- Bring the third cell to the top. `( x y z -- y z x )` -/
def rot (s : Stack kind) : Except Fault (Stack kind) := do
  let (x, y, z, rest) ← s.popTriple
  rest.pushAll [y, z, x]

/-- The number of cells that an index operand asks for, itself included, as far as a cell can
count. -/
def indexDepth (index : Cell) : Nat := min (index.toNat + 2) (UInt64.size - 1)

/-- Replace the index on top by a copy of the cell that many places below it. `( ... u -- ... x
)` -/
def pick (s : Stack kind) : Except Fault (Stack kind) := do
  let (index, rest) ← s.pop
  match rest.cells[index.toNat]? with
  | some x => rest.push x
  | none => .error (s.underflow (indexDepth index))

/-- Remove the index on top and bring the cell that many places below it to the top. `( ... u -- ...
x )` -/
def roll (s : Stack kind) : Except Fault (Stack kind) := do
  let (index, rest) ← s.pop
  match rest.cells[index.toNat]? with
  | some x => .ok { rest with cells := x :: rest.cells.eraseIdx index.toNat }
  | none => .error (s.underflow (indexDepth index))

/-- Copy the top cell unless it is zero. `( x -- 0 | x x )` -/
def dupNonzero (s : Stack kind) : Except Fault (Stack kind) := do
  let (x, rest) ← s.pop
  if x = 0 then return s else rest.pushAll [x, x]

/-- Remove the second cell. `( x y -- y )` -/
def nip (s : Stack kind) : Except Fault (Stack kind) := do
  let (_, y, rest) ← s.popPair
  rest.push y

/-- Copy the top cell below the second. `( x y -- y x y )` -/
def tuck (s : Stack kind) : Except Fault (Stack kind) := do
  let (x, y, rest) ← s.popPair
  rest.pushAll [y, x, y]

/-- Copy the two top cells. `( x y -- x y x y )` -/
def dupPair (s : Stack kind) : Except Fault (Stack kind) := do
  let (x, y, rest) ← s.popPair
  rest.pushAll [x, y, x, y]

/-- Remove the two top cells. `( x y -- )` -/
def dropPair (s : Stack kind) : Except Fault (Stack kind) := do
  let (_, _, rest) ← s.popPair
  return rest

/-- Move the top cell to the return stack. `( x -- ) ( R: -- x )` -/
def toReturn (data : Stack .data) (returns : Stack .returns) :
    Except Fault (Stack .data × Stack .returns) := do
  let (x, data) ← data.pop
  return (data, ← returns.push x)

/-- Move the top cell of the return stack back. `( -- x ) ( R: x -- )` -/
def fromReturn (data : Stack .data) (returns : Stack .returns) :
    Except Fault (Stack .data × Stack .returns) := do
  let (x, returns) ← returns.pop
  return (← data.push x, returns)

/-- Copy the top cell of the return stack. `( -- x ) ( R: x -- x )` -/
def copyReturn (data : Stack .data) (returns : Stack .returns) :
    Except Fault (Stack .data × Stack .returns) := do
  let (x, _) ← returns.pop
  return (← data.push x, returns)

end ThreadedForth.Stack
