import ThreadedForth.Proofs.Live

/-!
# Raw accesses

A machine works on its stacks and on data space by raw accesses, which check nothing themselves:
they read or replace the cell at a slot of a stack or the bytes of a range, with positions computed
in machine words. An access out of range, or a position that does not fit a machine word, ends an
operation for good. Such an ending is told apart from every other, so an operation that never ends
this way makes no such access.
-/

namespace ThreadedForth

/-- How an operation made of raw accesses ends: with a value, with a halt, by using up its budget of
steps, or by an access out of range. -/
inductive Ending (σ α : Type) where
  | done (value : α) (state : σ)
  | halted (reason : Halt) (state : σ)
  | exhausted
  | outOfRange

/-- The ending of a change that either happens or is refused without effect. -/
def Ending.ofChange {σ : Type} (s : σ) : Except Fault σ → Ending σ Unit
  | .ok t => .done () t
  | .error cause => .halted (.fault cause) s

/-- An operation made of checks and raw accesses. What it did before a halt stays done. -/
def Raw (σ α : Type) := σ → Ending σ α

namespace Raw

variable {σ τ α β : Type}

/-- Carry out an operation. -/
def run (x : Raw σ α) (s : σ) : Ending σ α := x s

/-- Go on with the value of an operation, unless it has ended otherwise. -/
def andThen (x : Raw σ α) (next : α → Raw σ β) : Raw σ β := fun s =>
  match x.run s with
  | .done value t => (next value).run t
  | .halted reason t => .halted reason t
  | .exhausted => .exhausted
  | .outOfRange => .outOfRange

instance : Monad (Raw σ) where
  pure value := fun s => .done value s
  bind := andThen

/-- An operation that gives a value goes on with it. -/
theorem bind_done {x : Raw σ α} {next : α → Raw σ β} {s t : σ} {value : α}
    (h : x.run s = .done value t) : (x >>= next).run s = (next value).run t := by
  change andThen x next s = _
  rw [andThen, h]

/-- An operation that halts does not go on. -/
theorem bind_halted {x : Raw σ α} {next : α → Raw σ β} {s t : σ} {reason : Halt}
    (h : x.run s = .halted reason t) : (x >>= next).run s = .halted reason t := by
  change andThen x next s = _
  rw [andThen, h]

/-- An operation that has used up its budget does not go on. -/
theorem bind_exhausted {x : Raw σ α} {next : α → Raw σ β} {s : σ} (h : x.run s = .exhausted) :
    (x >>= next).run s = .exhausted := by
  change andThen x next s = _
  rw [andThen, h]

/-- Look at the state without an access to its bounded areas. -/
def look (reading : σ → α) : Raw σ α := fun s => .done (reading s) s

/-- Change the state without an access to its bounded areas. -/
def revise (change : σ → σ) : Raw σ Unit := fun s => .done () (change s)

/-- Refuse to go on. -/
def refuse (cause : Fault) : Raw σ α := fun s => .halted (.fault cause) s

/-- A check of the state, which may refuse to go on and changes nothing. -/
def check (reading : σ → Except Fault α) : Raw σ α := fun s =>
  match reading s with
  | .ok value => .done value s
  | .error cause => .halted (.fault cause) s

/-- A raw access that reads. -/
def load (reading : σ → Option α) : Raw σ α := fun s =>
  match reading s with
  | some value => .done value s
  | none => .outOfRange

/-- A raw access that writes. -/
def save (change : σ → Option σ) : Raw σ Unit := fun s =>
  match change s with
  | some t => .done () t
  | none => .outOfRange

/-- Carry out an operation on a part of the state. -/
def zoom (part : τ → σ) (replace : τ → σ → τ) (x : Raw σ α) : Raw τ α := fun s =>
  match x.run (part s) with
  | .done value t => .done value (replace s t)
  | .halted reason t => .halted reason (replace s t)
  | .exhausted => .exhausted
  | .outOfRange => .outOfRange

/-- What has been looked at is gone on with. -/
theorem bind_look {reading : σ → α} {next : α → Raw σ β} {s : σ} :
    (look reading >>= next).run s = (next (reading s)).run s := rfl

/-- A changed state is gone on with. -/
theorem bind_revise {change : σ → σ} {next : Unit → Raw σ β} {s : σ} :
    (revise change >>= next).run s = (next ()).run (change s) := rfl

/-- A check that passes gives its value. -/
theorem check_ok {reading : σ → Except Fault α} {s : σ} {value : α} (h : reading s = .ok value) :
    (check reading).run s = .done value s := by
  rw [run, check, h]

/-- A check that fails halts. -/
theorem check_error {reading : σ → Except Fault α} {s : σ} {cause : Fault}
    (h : reading s = .error cause) : (check reading).run s = .halted (.fault cause) s := by
  rw [run, check, h]

/-- A check followed by raw accesses does what the check followed by a change does, if the accesses
do so wherever the check passes. -/
theorem check_bind {reading : σ → Except Fault α} {next : α → Raw σ Unit} {f : α → Except Fault σ}
    {s : σ} (h : ∀ value, reading s = .ok value → (next value).run s = .ofChange s (f value)) :
    (check reading >>= next).run s = .ofChange s (reading s >>= f) := by
  cases hreading : reading s with
  | error cause => exact bind_halted (check_error hreading)
  | ok value => rw [bind_done (check_ok hreading)]; exact h value hreading

/-- An access in range gives what it reads. -/
theorem load_some {reading : σ → Option α} {s : σ} {value : α} (h : reading s = some value) :
    (load reading).run s = .done value s := by
  rw [run, load, h]

/-- An access in range writes. -/
theorem save_some {change : σ → Option σ} {s t : σ} (h : change s = some t) :
    (save change).run s = .done () t := by
  rw [run, save, h]

/-- An operation that gives a value on a part of the state gives it on the whole. -/
theorem zoom_done {part : τ → σ} {replace : τ → σ → τ} {x : Raw σ α} {s : τ} {t : σ} {value : α}
    (h : x.run (part s) = .done value t) :
    (zoom part replace x).run s = .done value (replace s t) := by
  rw [run, zoom, h]

/-- An operation that halts on a part of the state halts on the whole. -/
theorem zoom_halted {part : τ → σ} {replace : τ → σ → τ} {x : Raw σ α} {s : τ} {t : σ}
    {reason : Halt} (h : x.run (part s) = .halted reason t) :
    (zoom part replace x).run s = .halted reason (replace s t) := by
  rw [run, zoom, h]

section Part

variable {part : τ → σ} {replace : τ → σ → τ} {x : Raw σ α} {s : τ} {t : σ}

/-- An operation that leaves a part of the state as it is leaves the whole as it is. -/
theorem zoom_read {value : α} (hsame : replace s (part s) = s) (hpart : part s = t)
    (h : x.run t = .done value t) : (zoom part replace x).run s = .done value s := by
  subst hpart
  rw [zoom_done h, hsame]

/-- An operation that is refused on a part of the state is refused on the whole without effect. -/
theorem zoom_refused {reason : Halt} (hsame : replace s (part s) = s) (hpart : part s = t)
    (h : x.run t = .halted reason t) : (zoom part replace x).run s = .halted reason s := by
  subst hpart
  rw [zoom_halted h, hsame]

end Part

end Raw

/-- The sum of two positions, unless it does not fit a machine word. -/
def addWord (a b : Nat) : Option Nat := if a + b < UInt64.size then some (a + b) else none

/-- The difference of two positions, unless it is negative. -/
def subWord (a b : Nat) : Option Nat := if b ≤ a then some (a - b) else none

/-- An index into an area of a given size, unless it is out of range. -/
def indexWithin (size index : Nat) : Option Nat := if index < size then some index else none

/-- The end of a range in an area of a given size, unless the range is not inside the area. -/
def rangeWithin (size start length : Nat) : Option Nat := do
  let stop ← addWord start length
  if stop ≤ size then some stop else none

/-- A range inside an area whose size fits a machine word is in range. -/
theorem rangeWithin_of_le {size : Nat} (start length : Nat) (h : start + length ≤ size)
    (hsize : size < UInt64.size) : rangeWithin size start length = some (start + length) := by
  unfold rangeWithin addWord
  rw [if_pos (by omega)]
  exact if_pos h

namespace Stack

variable {kind : StackKind}

/-- The number of free slots. -/
def freeSlots (s : Stack kind) : Option Nat := subWord s.capacity s.depth

/-- The index of the slot a number of places below the top. -/
def slot (s : Stack kind) (place : Nat) : Option Nat := do
  let count ← addWord place 1
  let index ← subWord s.depth count
  indexWithin s.capacity index

/-- The free slots are the room. -/
theorem freeSlots_eq (s : Stack kind) : s.freeSlots = some s.room := by
  unfold freeSlots subWord capacity
  rw [if_pos (by omega), Nat.add_sub_cancel_left]

/-- The slot of every cell on the stack is in range. -/
theorem slot_of_lt {s : Stack kind} {place : Nat} (h : place < s.depth)
    (hplace : place + 1 < UInt64.size) : s.slot place = some (s.depth - (place + 1)) := by
  have hle : s.depth ≤ s.capacity := Nat.le_add_right _ _
  unfold slot addWord subWord indexWithin
  rw [if_pos hplace]
  change (if place + 1 ≤ s.depth then some (s.depth - (place + 1)) else none) >>= _ = _
  rw [if_pos (Nat.succ_le_of_lt h)]
  exact if_pos (by omega)

end Stack

namespace Raw

variable {kind : StackKind}

/-- Require a number of cells. -/
def requireDepth (needed : Nat) : Raw (Stack kind) Unit := check (·.requireDepth needed)

/-- Require room for a number of cells. -/
def requireRoom (needed : Nat) : Raw (Stack kind) Unit := do
  let room ← load Stack.freeSlots
  check fun s => if room < needed then .error s.overflow else .ok ()

/-- Fill the slot above the top. -/
def put (x : Cell) : Raw (Stack kind) Unit := save fun s => do
  let _ ← indexWithin s.capacity s.depth
  let _ ← addWord s.depth 1
  return { s with cells := x :: s.cells, room := s.room - 1 }

/-- Read a cell a number of places below the top. -/
def peek (place : Nat) : Raw (Stack kind) Cell := load fun s => do
  let _ ← s.slot place
  s.cells[place]?

/-- Replace a cell a number of places below the top. -/
def poke (place : Nat) (x : Cell) : Raw (Stack kind) Unit := save fun s => do
  let _ ← s.slot place
  return { s with cells := s.cells.set place x }

/-- Give the top slot free and read what it held. -/
def take : Raw (Stack kind) Cell := do
  let x ← peek 0
  save fun s => some { s with cells := s.cells.tail, room := s.room + 1 }
  return x

/-- Move the cells above a slot down by one and put what it held on top. -/
def rotate (place : Nat) : Raw (Stack kind) Unit := save fun s => do
  let start ← s.slot place
  let above ← addWord start 1
  let count ← subWord s.depth above
  let _ ← rangeWithin s.capacity above count
  let _ ← rangeWithin s.capacity start count
  let _ ← s.slot 0
  let x ← s.cells[place]?
  return { s with cells := x :: s.cells.eraseIdx place }

/-- Fill slots above the top one after the other. -/
def putAll : List Cell → Raw (Stack kind) Unit
  | [] => return ()
  | x :: rest => do put x; putAll rest

variable {s : Stack kind}

/-- A stack with enough cells passes. -/
theorem requireDepth_of_le {needed : Nat} (h : needed ≤ s.depth) :
    (requireDepth needed).run s = .done () s :=
  check_ok (if_neg (Nat.not_lt_of_le h))

/-- A stack with too few cells is refused. -/
theorem requireDepth_of_lt {needed : Nat} (h : s.depth < needed) :
    (requireDepth needed).run s = .halted (.fault (s.underflow needed)) s :=
  check_error (if_pos h)

/-- A stack with enough room passes. -/
theorem requireRoom_of_le {needed : Nat} (h : needed ≤ s.room) :
    (requireRoom needed).run s = .done () s := by
  unfold requireRoom
  rw [bind_done (load_some s.freeSlots_eq)]
  exact check_ok (if_neg (Nat.not_lt_of_le h))

/-- A stack with too little room is refused. -/
theorem requireRoom_of_lt {needed : Nat} (h : s.room < needed) :
    (requireRoom needed).run s = .halted (.fault s.overflow) s := by
  unfold requireRoom
  rw [bind_done (load_some s.freeSlots_eq)]
  exact check_error (if_pos h)

/-- Where there is room, filling the slot above the top is in range and pushes. -/
theorem put_of_push {x : Cell} {t : Stack kind} (h : s.push x = .ok t)
    (hs : s.capacity + 1 < UInt64.size) : (put x).run s = .done () t := by
  obtain ⟨hcells, hroom⟩ := Stack.push_eq_ok.mp h
  have hcapacity : s.capacity = s.depth + s.room := rfl
  apply save_some
  unfold indexWithin addWord
  rw [if_pos (by omega), if_pos (by omega)]
  exact congrArg some (Stack.eq_of_cells hcells.symm (by simp only; omega))

/-- A cell on the stack is read in range. -/
theorem peek_of_get {place : Nat} {x : Cell} (h : s.cells[place]? = some x)
    (hplace : place + 1 < UInt64.size) : (peek place).run s = .done x s := by
  obtain ⟨hlt, -⟩ := List.getElem?_eq_some_iff.mp h
  apply load_some
  rw [Stack.slot_of_lt hlt hplace]
  exact h

/-- An empty stack has a slot for its first cell, but no cell to read. -/
example : (peek 0).run (.empty 1 : Stack .data) = .outOfRange := rfl

/-- A cell on the stack is replaced in range. -/
theorem poke_of_lt {place : Nat} (x : Cell) (h : place < s.depth)
    (hplace : place + 1 < UInt64.size) :
    (poke place x).run s = .done () { s with cells := s.cells.set place x } := by
  apply save_some
  rw [Stack.slot_of_lt h hplace]
  rfl

/-- Taking the top cell of a stack that has one is in range and pops. -/
theorem take_of_pop {x : Cell} {t : Stack kind} (h : s.pop = .ok (x, t)) :
    take.run s = .done x t := by
  obtain ⟨hcells, hroom⟩ := Stack.pop_eq_ok.mp h
  unfold take
  rw [bind_done (peek_of_get (by rw [hcells]; rfl) (by decide))]
  exact congrArg (Ending.done x) (Stack.eq_of_cells (by simp only [hcells, List.tail_cons]) hroom)

/-- Moving a cell on the stack to the top is in range. -/
theorem rotate_of_get {place : Nat} {x : Cell} (h : s.cells[place]? = some x)
    (hs : s.capacity + 1 < UInt64.size) :
    (rotate place).run s = .done () { s with cells := x :: s.cells.eraseIdx place } := by
  obtain ⟨hlt, -⟩ := List.getElem?_eq_some_iff.mp h
  have hdepth : s.depth = s.cells.length := rfl
  have hcapacity : s.capacity = s.depth + s.room := rfl
  have hslot := Stack.slot_of_lt hlt (by omega)
  have habove : addWord (s.depth - (place + 1)) 1 = some (s.depth - place) := by
    rw [addWord, if_pos (by omega)]; congr 1; omega
  have hcount : subWord s.depth (s.depth - place) = some place := by
    rw [subWord, if_pos (by omega)]; congr 1; omega
  have hsource := rangeWithin_of_le (s.depth - place) place (by omega) (Nat.lt_of_succ_lt hs)
  have htarget := rangeWithin_of_le (s.depth - (place + 1)) place (by omega) (Nat.lt_of_succ_lt hs)
  have htop : s.slot 0 = _ := Stack.slot_of_lt (by omega) (by decide)
  apply save_some
  simp only [hslot, habove, hcount, hsource, htarget, htop, h, Option.bind_eq_bind,
    Option.bind_some]
  rfl

/-- Where there is room, filling several slots is in range and pushes. -/
theorem putAll_of_pushAll {xs : List Cell} {t : Stack kind} (h : s.pushAll xs = .ok t)
    (hs : s.capacity + 1 < UInt64.size) : (putAll xs).run s = .done () t := by
  induction xs generalizing s with
  | nil => cases h; rfl
  | cons x rest ih =>
      obtain ⟨u, hu, hrest⟩ := bind_eq_ok.mp h
      rw [putAll, bind_done (put_of_push hu hs)]
      exact ih hrest (Stack.capacity_push hu ▸ hs)

/-- Read the cell at a position. -/
def loadCell (position : Nat) : Raw DataSpace Cell := load fun s => do
  let _ ← rangeWithin s.size position cellSize
  return s.cellAt position

/-- Replace the cell at a position. -/
def saveCell (position : Nat) (x : Cell) : Raw DataSpace Unit := save fun s => do
  let _ ← rangeWithin s.size position cellSize
  return s.setCell position x

/-- Read the byte at a position. -/
def loadByte (position : Nat) : Raw DataSpace UInt8 := load fun s => do
  let _ ← indexWithin s.size position
  return s.byteAt position

/-- Replace the byte at a position. -/
def saveByte (position : Nat) (b : UInt8) : Raw DataSpace Unit := save fun s => do
  let _ ← indexWithin s.size position
  return s.setByte position b

/-- Read the bytes of a range. -/
def loadBytes (position length : Nat) : Raw DataSpace (List UInt8) := load fun s => do
  let _ ← rangeWithin s.size position length
  return s.bytesAt position length

/-- Replace the bytes of a range. -/
def saveBytes (position : Nat) (bytes : List UInt8) : Raw DataSpace Unit := save fun s => do
  let _ ← rangeWithin s.size position bytes.length
  return s.setBytes position bytes

/-- Move `here` forward. -/
def allot (length : Nat) : Raw DataSpace Unit := save fun s => do
  let here ← addWord s.here length
  return { s with here := here }

section Space

variable {s : DataSpace} {position : Nat}

/-- A cell inside data space is read in range. -/
theorem loadCell_of_le (h : position + cellSize ≤ s.size) (hs : s.size + cellSize < UInt64.size) :
    (loadCell position).run s = .done (s.cellAt position) s := by
  apply load_some
  rw [rangeWithin_of_le _ _ h (by omega)]
  rfl

/-- The last cell of a data space whose end is not on a cell boundary is not inside. -/
example : (loadCell 8).run (.empty 12) = .outOfRange := rfl

/-- A cell inside data space is replaced in range. -/
theorem saveCell_of_le (x : Cell) (h : position + cellSize ≤ s.size)
    (hs : s.size + cellSize < UInt64.size) :
    (saveCell position x).run s = .done () (s.setCell position x) := by
  apply save_some
  rw [rangeWithin_of_le _ _ h (by omega)]
  rfl

/-- A byte inside data space is read in range. -/
theorem loadByte_of_lt (h : position < s.size) :
    (loadByte position).run s = .done (s.byteAt position) s := by
  apply load_some
  rw [indexWithin, if_pos h]
  rfl

/-- A byte inside data space is replaced in range. -/
theorem saveByte_of_lt (b : UInt8) (h : position < s.size) :
    (saveByte position b).run s = .done () (s.setByte position b) := by
  apply save_some
  rw [indexWithin, if_pos h]
  rfl

/-- A range inside data space is read in range. -/
theorem loadBytes_of_le {length : Nat} (h : position + length ≤ s.size)
    (hs : s.size + cellSize < UInt64.size) :
    (loadBytes position length).run s = .done (s.bytesAt position length) s := by
  apply load_some
  rw [rangeWithin_of_le _ _ h (by omega)]
  rfl

/-- A range inside data space is replaced in range. -/
theorem saveBytes_of_le {bytes : List UInt8} (h : position + bytes.length ≤ s.size)
    (hs : s.size + cellSize < UInt64.size) :
    (saveBytes position bytes).run s = .done () (s.setBytes position bytes) := by
  apply save_some
  rw [rangeWithin_of_le _ _ h (by omega)]
  rfl

/-- `here` moves to a position that fits a machine word. -/
theorem allot_of_lt {length : Nat} (h : s.here + length < UInt64.size) :
    (allot length).run s = .done () { s with here := s.here + length } := by
  apply save_some
  rw [addWord, if_pos h]
  rfl

end Space

/-- Carry out an operation on the data stack. -/
def onData {α : Type} (x : Raw (Stack .data) α) : Raw Machine α :=
  zoom (·.data) (fun m data => { m with data := data }) x

/-- Carry out an operation on the return stack. -/
def onReturns {α : Type} (x : Raw (Stack .returns) α) : Raw Machine α :=
  zoom (·.returns) (fun m returns => { m with returns := returns }) x

/-- Carry out an operation on data space. -/
def onSpace {α : Type} (x : Raw DataSpace α) : Raw Machine α :=
  zoom (·.space) (fun m space => { m with space := space }) x

section Areas

variable {α : Type} {m : Machine}

/-- What is read from the data stack is read by the machine. -/
theorem onData_read {x : Raw (Stack .data) α} {data : Stack .data} {value : α}
    (hdata : m.data = data) (h : x.run data = .done value data) :
    (onData x).run m = .done value m :=
  zoom_read rfl hdata h

/-- A changed data stack is that of the machine. -/
theorem onData_done {x : Raw (Stack .data) α} {data after : Stack .data} {value : α}
    (hdata : m.data = data) (h : x.run data = .done value after) :
    (onData x).run m = .done value { m with data := after } := by
  subst hdata
  exact zoom_done h

/-- A data stack that is refused halts the machine. -/
theorem onData_halted {x : Raw (Stack .data) α} {data : Stack .data} {reason : Halt}
    (hdata : m.data = data) (h : x.run data = .halted reason data) :
    (onData x).run m = .halted reason m :=
  zoom_refused rfl hdata h

/-- What is read from the return stack is read by the machine. -/
theorem onReturns_read {x : Raw (Stack .returns) α} {returns : Stack .returns} {value : α}
    (hreturns : m.returns = returns) (h : x.run returns = .done value returns) :
    (onReturns x).run m = .done value m :=
  zoom_read rfl hreturns h

/-- A changed return stack is that of the machine. -/
theorem onReturns_done {x : Raw (Stack .returns) α} {returns after : Stack .returns} {value : α}
    (hreturns : m.returns = returns) (h : x.run returns = .done value after) :
    (onReturns x).run m = .done value { m with returns := after } := by
  subst hreturns
  exact zoom_done h

/-- A return stack that is refused halts the machine. -/
theorem onReturns_halted {x : Raw (Stack .returns) α} {returns : Stack .returns} {reason : Halt}
    (hreturns : m.returns = returns) (h : x.run returns = .halted reason returns) :
    (onReturns x).run m = .halted reason m :=
  zoom_refused rfl hreturns h

/-- What is read from data space is read by the machine. -/
theorem onSpace_read {x : Raw DataSpace α} {value : α} (h : x.run m.space = .done value m.space) :
    (onSpace x).run m = .done value m :=
  zoom_done h

/-- A changed data space is that of the machine. -/
theorem onSpace_done {x : Raw DataSpace α} {after : DataSpace} {value : α}
    (h : x.run m.space = .done value after) :
    (onSpace x).run m = .done value { m with space := after } :=
  zoom_done h

/-- A change of data space that happens or is refused is one of the machine. -/
theorem onSpace_change {x : Raw DataSpace Unit} {change : Except Fault DataSpace}
    (h : x.run m.space = .ofChange m.space change) :
    (onSpace x).run m = .ofChange m (do return { m with space := ← change }) := by
  cases change with
  | error cause => exact zoom_halted h
  | ok space => exact zoom_done h

end Areas

end Raw

namespace Ending

variable {σ α : Type}

/-- The ending of a run. -/
def ofRun : Run α → Ending Machine α
  | some (.done value m) => .done value m
  | some (.halted reason m) => .halted reason m
  | none => .exhausted

/-- A change ends in the same way as the outcome of attempting it. -/
theorem ofRun_attempt (m : Machine) (change : Except Fault Machine) :
    ofRun (some (m.attempt change)) = ofChange m change := by
  cases change <;> rfl

end Ending

/-- The areas of a machine are small enough for their positions and counts to fit machine words, a
byte of data space remains, and the system area lies inside with the current line in the input
buffer. -/
structure Machine.Addressable (m : Machine) : Prop where
  data : m.data.capacity + 1 < UInt64.size
  returns : m.returns.capacity + 1 < UInt64.size
  space : m.space.size + cellSize < UInt64.size
  here : m.space.here < m.space.size
  system : m.config.systemArea ≤ m.space.size
  line : m.lineLength ≤ m.config.inputBuffer

/-- A well-formed machine is addressable. -/
theorem Machine.WellFormed.addressable {m : Machine} {config : Config} {arguments : List String}
    (h : m.WellFormed config arguments) : m.Addressable := by
  have hdata : config.dataStack ≤ 0x100000 := h.valid.dataStack.2
  have hreturns : config.returnStack ≤ 0x100000 := h.valid.returnStack.2
  have hspace : config.dataSpace ≤ 0x40000000 := h.valid.dataSpace.2
  have hsize : UInt64.size = 18446744073709551616 := rfl
  have hcell : cellSize = 8 := rfl
  refine ⟨?_, ?_, ?_, h.here_lt_size, ?_, ?_⟩
  · rw [h.data_capacity]; omega
  · rw [h.returns_capacity]; omega
  · rw [h.space_size]; omega
  · rw [h.config_eq, h.space_size]; exact Nat.le_of_lt h.valid.systemArea
  · rw [h.config_eq]; exact h.line_le

end ThreadedForth
