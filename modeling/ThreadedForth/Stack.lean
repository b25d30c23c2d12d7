import ThreadedForth.Fault

/-!
# Bounded stacks

A stack is the list of its cells, top first, together with the number of cells it can still take.
Pushing consumes room and popping gives it back, so depth and room always add up to the capacity.
The combinators for several cells fail exactly where the single steps would, and a failing operation
yields no stack.
-/

namespace ThreadedForth

/-- A bounded stack of cells, top first, with its free room. The kind tells in faults which stack it
is. -/
structure Stack (kind : StackKind) where
  cells : List Cell
  room : Nat

namespace Stack

variable {kind : StackKind}

/-- The empty stack of a given capacity. -/
def empty (capacity : Nat) : Stack kind := ⟨[], capacity⟩

/-- The number of cells on the stack. -/
def depth (s : Stack kind) : Nat := s.cells.length

/-- The number of cells the stack holds when full. -/
def capacity (s : Stack kind) : Nat := s.depth + s.room

/-- The cells from the bottom of the stack to its top. -/
def toList (s : Stack kind) : List Cell := s.cells.reverse

/-- The fault of an operation that needs more cells than there are. -/
def underflow (s : Stack kind) (needed : Nat) : Fault := .stackUnderflow kind needed s.depth

/-- The fault of an operation that needs more room than there is. -/
def overflow (s : Stack kind) : Fault := .stackOverflow kind s.capacity

/-- Refuse a stack with fewer than the needed number of cells. -/
def requireDepth (s : Stack kind) (needed : Nat) : Except Fault Unit :=
  if s.depth < needed then .error (s.underflow needed) else .ok ()

/-- Refuse a stack with room for fewer than the needed number of cells. -/
def requireRoom (s : Stack kind) (needed : Nat) : Except Fault Unit :=
  if s.room < needed then .error s.overflow else .ok ()

/-- Put a cell on top. -/
def push (s : Stack kind) (x : Cell) : Except Fault (Stack kind) :=
  match s.room with
  | 0 => .error s.overflow
  | room + 1 => .ok { s with cells := x :: s.cells, room := room }

/-- Put several cells on top, the last one uppermost. -/
def pushAll (s : Stack kind) : List Cell → Except Fault (Stack kind)
  | [] => .ok s
  | x :: rest => do (← s.push x).pushAll rest

/-- Take the top cell. -/
def pop (s : Stack kind) : Except Fault (Cell × Stack kind) :=
  match s.cells with
  | x :: rest => .ok (x, { s with cells := rest, room := s.room + 1 })
  | [] => .error (s.underflow 1)

/-- Take the two top cells, the lower one first. -/
def popPair (s : Stack kind) : Except Fault (Cell × Cell × Stack kind) :=
  match s.cells with
  | y :: x :: rest => .ok (x, y, { s with cells := rest, room := s.room + 2 })
  | _ => .error (s.underflow 2)

/-- Take the three top cells, the lowest one first. -/
def popTriple (s : Stack kind) : Except Fault (Cell × Cell × Cell × Stack kind) :=
  match s.cells with
  | z :: y :: x :: rest => .ok (x, y, z, { s with cells := rest, room := s.room + 3 })
  | _ => .error (s.underflow 3)

/-- Pushing several cells succeeds exactly when there is room for all of them. -/
theorem pushAll_eq (s : Stack kind) (xs : List Cell) :
    s.pushAll xs =
      if xs.length ≤ s.room then .ok ⟨xs.reverse ++ s.cells, s.room - xs.length⟩
      else .error s.overflow := by
  induction xs generalizing s with
  | nil => simp [pushAll]
  | cons x rest ih =>
      obtain ⟨cells, room⟩ := s
      cases room with
      | zero => rfl
      | succ room =>
          change pushAll ⟨x :: cells, room⟩ rest = _
          rw [ih]
          simp only [List.length_cons, Nat.add_le_add_iff_right, List.reverse_cons,
            List.append_assoc, List.cons_append, List.nil_append, overflow, capacity, depth]
          congr 3 <;> omega

/-- Pushing keeps the capacity. -/
theorem capacity_push {s t : Stack kind} {x : Cell} (h : s.push x = .ok t) :
    t.capacity = s.capacity := by
  obtain ⟨cells, room⟩ := s
  cases room with
  | zero => cases h
  | succ room =>
      cases h
      simp only [capacity, depth, List.length_cons]
      omega

/-- Popping keeps the capacity. -/
theorem capacity_pop {s t : Stack kind} {x : Cell} (h : s.pop = .ok (x, t)) :
    t.capacity = s.capacity := by
  obtain ⟨cells, room⟩ := s
  cases cells with
  | nil => cases h
  | cons y rest =>
      cases h
      simp only [capacity, depth, List.length_cons]
      omega

end Stack

end ThreadedForth
