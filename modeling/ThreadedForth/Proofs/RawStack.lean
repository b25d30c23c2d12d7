import ThreadedForth.Proofs.RawAccess

/-!
# Stack words made of raw accesses

The words that work on one stack, as checks followed by raw accesses. On a stack whose counts fit
machine words none of these accesses is out of range, and what they do is what the word does: they
give the same stack, or are refused for the same reason and leave the stack as it was.
-/

namespace ThreadedForth.Raw

variable {kind : StackKind}

/-- On every stack whose counts fit machine words, raw accesses do what a stack word does. -/
def Implements (x : Raw (Stack kind) Unit) (word : Stack kind → Except Fault (Stack kind)) : Prop :=
  ∀ s, s.capacity + 1 < UInt64.size → x.run s = .ofChange s (word s)

/-- Replace the top cell by a function of it. -/
def unary (f : Cell → Cell) : Raw (Stack kind) Unit := do
  requireDepth 1
  poke 0 (f (← peek 0))

/-- Replace the two top cells by a function of them. -/
def binary (f : Cell → Cell → Cell) : Raw (Stack kind) Unit := do
  requireDepth 2
  let y ← take
  poke 0 (f (← peek 0) y)

/-- Dividend and divisor, unless the divisor is zero. -/
def operands : Raw (Stack kind) (Cell × Cell) := do
  requireDepth 2
  let y ← peek 0
  if y = 0 then refuse .divisionByZero
  else return (← peek 1, y)

/-- Replace dividend and divisor by a function of them. -/
def divide (f : Cell → Cell → Cell) : Raw (Stack kind) Unit := do
  let pair ← operands
  let _ ← take
  poke 0 (f pair.1 pair.2)

/-- Replace dividend and divisor by two functions of them. -/
def divideBoth (f g : Cell → Cell → Cell) : Raw (Stack kind) Unit := do
  let pair ← operands
  poke 1 (f pair.1 pair.2)
  poke 0 (g pair.1 pair.2)

/-- Remove the top cell. -/
def drop : Raw (Stack kind) Unit := do
  requireDepth 1
  let _ ← take

/-- Copy the top cell. -/
def dup : Raw (Stack kind) Unit := do
  requireDepth 1
  requireRoom 1
  put (← peek 0)

/-- Copy the second cell to the top. -/
def copySecond : Raw (Stack kind) Unit := do
  requireDepth 2
  requireRoom 1
  put (← peek 1)

/-- Exchange the two top cells. -/
def swap : Raw (Stack kind) Unit := do
  requireDepth 2
  let top ← peek 0
  poke 0 (← peek 1)
  poke 1 top

/-- Bring the third cell to the top. -/
def rot : Raw (Stack kind) Unit := do
  requireDepth 3
  rotate 2

/-- The index on top, if it selects one of the cells below it. -/
def stackIndex : Raw (Stack kind) Nat := do
  requireDepth 1
  let index ← peek 0
  requireDepth (Stack.indexDepth index)
  return index.toNat

/-- Replace the index on top by a copy of the cell it selects. -/
def pick : Raw (Stack kind) Unit := do
  let place ← stackIndex
  let _ ← take
  put (← peek place)

/-- Remove the index on top and bring the cell it selects to the top. -/
def roll : Raw (Stack kind) Unit := do
  let place ← stackIndex
  let _ ← take
  rotate place

/-- Copy the top cell unless it is zero. -/
def dupNonzero : Raw (Stack kind) Unit := do
  requireDepth 1
  let top ← peek 0
  if top = 0 then return ()
  else
    requireRoom 1
    put top

/-- Remove the second cell. -/
def nip : Raw (Stack kind) Unit := do
  requireDepth 2
  let top ← take
  poke 0 top

/-- Copy the top cell below the second. -/
def tuck : Raw (Stack kind) Unit := do
  requireDepth 2
  requireRoom 1
  let top ← peek 0
  poke 0 (← peek 1)
  poke 1 top
  put top

/-- Copy the two top cells. -/
def dupPair : Raw (Stack kind) Unit := do
  requireDepth 2
  requireRoom 2
  let x ← peek 1
  let y ← peek 0
  put x
  put y

/-- Remove the two top cells. -/
def dropPair : Raw (Stack kind) Unit := do
  requireDepth 2
  let _ ← take
  let _ ← take

section Shapes

variable {x y z : Cell} {rest : List Cell} {room : Nat}

/-- A stack with a top cell has one cell. -/
theorem requireDepth_one :
    (requireDepth 1).run (⟨x :: rest, room⟩ : Stack kind) = .done () ⟨x :: rest, room⟩ :=
  requireDepth_of_le (Nat.le_add_left _ _)

/-- A stack with a second cell has two cells. -/
theorem requireDepth_two :
    (requireDepth 2).run (⟨y :: x :: rest, room⟩ : Stack kind) = .done () ⟨y :: x :: rest, room⟩ :=
  requireDepth_of_le (Nat.le_add_left _ _)

/-- The top cell is read in range. -/
theorem peek_top : (peek 0).run (⟨x :: rest, room⟩ : Stack kind) = .done x ⟨x :: rest, room⟩ :=
  peek_of_get rfl (by decide)

/-- The second cell is read in range. -/
theorem peek_second :
    (peek 1).run (⟨y :: x :: rest, room⟩ : Stack kind) = .done x ⟨y :: x :: rest, room⟩ :=
  peek_of_get rfl (by decide)

/-- The top cell is replaced in range. -/
theorem poke_top : (poke 0 z).run (⟨x :: rest, room⟩ : Stack kind) = .done () ⟨z :: rest, room⟩ :=
  poke_of_lt z (Nat.zero_lt_succ _) (by decide)

/-- The second cell is replaced in range. -/
theorem poke_second :
    (poke 1 z).run (⟨y :: x :: rest, room⟩ : Stack kind) = .done () ⟨y :: z :: rest, room⟩ :=
  poke_of_lt z (Nat.succ_lt_succ (Nat.zero_lt_succ _)) (by decide)

/-- The top cell is taken in range. -/
theorem take_top : take.run (⟨x :: rest, room⟩ : Stack kind) = .done x ⟨rest, room + 1⟩ :=
  take_of_pop rfl

/-- A stack with room for a cell has it. -/
theorem requireRoom_one :
    (requireRoom 1).run (⟨rest, room + 1⟩ : Stack kind) = .done () ⟨rest, room + 1⟩ :=
  requireRoom_of_le (Nat.le_add_left _ _)

/-- A full stack has no room for a cell. -/
theorem requireRoom_full :
    (requireRoom 1).run (⟨rest, 0⟩ : Stack kind) =
      .halted (.fault (.stackOverflow kind rest.length)) ⟨rest, 0⟩ :=
  requireRoom_of_lt Nat.zero_lt_one

end Shapes

/-- Replacing the top cell is in range. -/
theorem unary_implements (f : Cell → Cell) :
    Implements (unary f : Raw (Stack kind) Unit) (Stack.unary f) := by
  rintro ⟨_ | ⟨x, rest⟩, room⟩ _
  · rfl
  · rw [unary, bind_done requireDepth_one, bind_done peek_top, poke_top]
    rfl

/-- Replacing the two top cells is in range. -/
theorem binary_implements (f : Cell → Cell → Cell) :
    Implements (binary f : Raw (Stack kind) Unit) (Stack.binary f) := by
  rintro ⟨_ | ⟨y, _ | ⟨x, rest⟩⟩, room⟩ _
  · rfl
  · rfl
  · rw [binary, bind_done requireDepth_two, bind_done take_top, bind_done peek_top, poke_top]
    rfl

/-- The operands of a division are read in range, and a zero divisor is refused. -/
theorem operands_run (x y : Cell) (rest : List Cell) (room : Nat) :
    (operands : Raw (Stack kind) (Cell × Cell)).run ⟨y :: x :: rest, room⟩ =
      if y = 0 then .halted (.fault .divisionByZero) ⟨y :: x :: rest, room⟩
      else .done (x, y) ⟨y :: x :: rest, room⟩ := by
  rw [operands, bind_done requireDepth_two, bind_done peek_top]
  split
  · rfl
  · rw [bind_done peek_second]
    rfl

/-- What follows the operands of a division replaces them, if it does so wherever the divisor is not
zero. -/
theorem operands_implements {next : Cell × Cell → Raw (Stack kind) Unit}
    {f : Cell → Cell → List Cell} (h : ∀ x y rest room, (next (x, y)).run ⟨y :: x :: rest, room⟩ =
      .ofChange ⟨y :: x :: rest, room⟩ ((⟨rest, room + 2⟩ : Stack kind).pushAll (f x y))) :
    Implements (operands >>= next) (Stack.divide f) := by
  rintro ⟨_ | ⟨y, _ | ⟨x, rest⟩⟩, room⟩ _
  · rfl
  · rfl
  · have hoperands : (operands : Raw (Stack kind) (Cell × Cell)).run _ = _ :=
      operands_run x y rest room
    change _ = Ending.ofChange _ (if y = 0 then .error .divisionByZero else _)
    split at hoperands
    · next hy =>
      rw [bind_halted hoperands, if_pos hy]
      rfl
    · next hy =>
      rw [bind_done hoperands, if_neg hy]
      exact h x y rest room

/-- Division by a function of the operands is in range. -/
theorem divide_implements (f : Cell → Cell → Cell) :
    Implements (divide f : Raw (Stack kind) Unit) (Stack.divide fun x y => [f x y]) :=
  operands_implements fun _ _ _ _ => by
    rw [bind_done take_top, poke_top]
    rfl

/-- Division by two functions of the operands is in range. -/
theorem divideBoth_implements (f g : Cell → Cell → Cell) :
    Implements (divideBoth f g : Raw (Stack kind) Unit) (Stack.divide fun x y => [f x y, g x y]) :=
  operands_implements fun _ _ _ _ => by
    rw [bind_done poke_second, poke_top]
    rfl

/-- Removing the top cell is in range. -/
theorem drop_implements : Implements (drop : Raw (Stack kind) Unit) Stack.drop := by
  rintro ⟨_ | ⟨x, rest⟩, room⟩ _
  · rfl
  · rw [drop, bind_done requireDepth_one, bind_done take_top]
    rfl

/-- Copying the top cell is in range. -/
theorem dup_implements : Implements (dup : Raw (Stack kind) Unit) Stack.dup := by
  rintro ⟨_ | ⟨x, rest⟩, _ | room⟩ hs
  · rfl
  · rfl
  · rw [dup, bind_done requireDepth_one, bind_halted requireRoom_full]
    rfl
  · rw [dup, bind_done requireDepth_one, bind_done requireRoom_one, bind_done peek_top,
      put_of_push rfl hs]
    rfl

/-- Copying the second cell is in range. -/
theorem copySecond_implements :
    Implements (copySecond : Raw (Stack kind) Unit) Stack.copySecond := by
  rintro ⟨_ | ⟨y, _ | ⟨x, rest⟩⟩, _ | room⟩ hs
  · rfl
  · rfl
  · rfl
  · rfl
  · rw [copySecond, bind_done requireDepth_two, bind_halted requireRoom_full]
    rfl
  · rw [copySecond, bind_done requireDepth_two, bind_done requireRoom_one, bind_done peek_second,
      put_of_push rfl hs]
    rfl

/-- Exchanging the two top cells is in range. -/
theorem swap_implements : Implements (swap : Raw (Stack kind) Unit) Stack.swap := by
  rintro ⟨_ | ⟨y, _ | ⟨x, rest⟩⟩, room⟩ _
  · rfl
  · rfl
  · rw [swap, bind_done requireDepth_two, bind_done peek_top, bind_done peek_second,
      bind_done poke_top, poke_second]
    rfl

/-- Bringing the third cell to the top is in range. -/
theorem rot_implements : Implements (rot : Raw (Stack kind) Unit) Stack.rot := by
  rintro ⟨_ | ⟨z, _ | ⟨y, _ | ⟨x, rest⟩⟩⟩, room⟩ hs
  · rfl
  · rfl
  · rfl
  · rw [rot, bind_done (requireDepth_of_le (Nat.le_add_left _ _)), rotate_of_get rfl hs]
    rfl

/-- The index on top is accepted exactly when it selects a cell below it. The count that it asks for
is cut off at the greatest machine word, which no stack is deep enough for. -/
theorem stackIndex_run {index : Cell} {rest : List Cell} {room : Nat}
    (hs : (⟨index :: rest, room⟩ : Stack kind).capacity + 1 < UInt64.size) :
    stackIndex.run (⟨index :: rest, room⟩ : Stack kind) =
      if index.toNat < rest.length then .done index.toNat ⟨index :: rest, room⟩
      else .halted (.fault (.stackUnderflow kind (Stack.indexDepth index) (rest.length + 1)))
        ⟨index :: rest, room⟩ := by
  have hcapacity : rest.length + 1 + room + 1 < UInt64.size := hs
  have hindex : Stack.indexDepth index = min (index.toNat + 2) (UInt64.size - 1) := rfl
  have hdepth : (⟨index :: rest, room⟩ : Stack kind).depth = rest.length + 1 := rfl
  rw [stackIndex, bind_done requireDepth_one, bind_done peek_top]
  split
  · rw [bind_done (requireDepth_of_le (by omega))]
    rfl
  · rw [bind_halted (requireDepth_of_lt (by omega))]
    rfl

/-- What follows an index that selects a cell has it removed and the cell at hand. -/
theorem stackIndex_implements {next : Nat → Raw (Stack kind) Unit}
    {f : Nat → Cell → Stack kind → Except Fault (Stack kind)}
    (h : ∀ place x rest room, rest[place]? = some x → rest.length + (room + 1) + 1 < UInt64.size →
      ∃ t, (next place).run ⟨rest, room + 1⟩ = .done () t ∧ f place x ⟨rest, room + 1⟩ = .ok t) :
    Implements (do let place ← stackIndex; let _ ← take; next place) (fun s => do
      let (index, rest) ← s.pop
      match rest.cells[index.toNat]? with
      | some x => f index.toNat x rest
      | none => .error (s.underflow (Stack.indexDepth index))) := by
  rintro ⟨_ | ⟨index, rest⟩, room⟩ hs
  · rfl
  · have hrun : stackIndex.run (⟨index :: rest, room⟩ : Stack kind) = _ := stackIndex_run hs
    have hcapacity : rest.length + 1 + room + 1 < UInt64.size := hs
    change _ = Ending.ofChange _ (match rest[index.toNat]? with | some x => _ | none => _)
    split at hrun
    · next hlt =>
      have hget := List.getElem?_eq_getElem hlt
      obtain ⟨t, hnext, ht⟩ := h _ _ rest room hget (by omega)
      rw [bind_done hrun, bind_done take_top, hnext, hget]
      change _ = Ending.ofChange _ (f _ _ _)
      rw [ht]
      rfl
    · next hge =>
      rw [bind_halted hrun, List.getElem?_eq_none (by omega)]
      rfl

/-- Copying a cell by its index is in range. -/
theorem pick_implements : Implements (pick : Raw (Stack kind) Unit) Stack.pick := by
  refine stackIndex_implements (f := fun _ x s => s.push x) fun place x rest room hget hs =>
    ⟨_, ?_, rfl⟩
  rw [bind_done (peek_of_get hget ?_)]
  · exact put_of_push rfl hs
  · have := (List.getElem?_eq_some_iff.mp hget).1
    omega

/-- Moving a cell to the top by its index is in range. -/
theorem roll_implements : Implements (roll : Raw (Stack kind) Unit) Stack.roll := by
  refine stackIndex_implements
    (f := fun place x s => .ok { s with cells := x :: s.cells.eraseIdx place })
    fun place x rest room hget hs => ⟨_, ?_, rfl⟩
  exact rotate_of_get hget hs

/-- Copying the top cell unless it is zero is in range. -/
theorem dupNonzero_implements :
    Implements (dupNonzero : Raw (Stack kind) Unit) Stack.dupNonzero := by
  rintro ⟨_ | ⟨x, rest⟩, room⟩ hs
  · rfl
  · change _ = Ending.ofChange _ (if x = 0 then _ else _)
    rw [dupNonzero, bind_done requireDepth_one, bind_done peek_top]
    by_cases hx : x = 0
    · rw [if_pos hx, if_pos hx]
      rfl
    · rw [if_neg hx, if_neg hx]
      cases room with
      | zero => rw [bind_halted requireRoom_full]; rfl
      | succ room => rw [bind_done requireRoom_one, put_of_push rfl hs]; rfl

/-- Removing the second cell is in range. -/
theorem nip_implements : Implements (nip : Raw (Stack kind) Unit) Stack.nip := by
  rintro ⟨_ | ⟨y, _ | ⟨x, rest⟩⟩, room⟩ _
  · rfl
  · rfl
  · rw [nip, bind_done requireDepth_two, bind_done take_top, poke_top]
    rfl

/-- Copying the top cell below the second is in range. -/
theorem tuck_implements : Implements (tuck : Raw (Stack kind) Unit) Stack.tuck := by
  rintro ⟨_ | ⟨y, _ | ⟨x, rest⟩⟩, _ | room⟩ hs
  · rfl
  · rfl
  · rfl
  · rfl
  · rw [tuck, bind_done requireDepth_two, bind_halted requireRoom_full]
    rfl
  · rw [tuck, bind_done requireDepth_two, bind_done requireRoom_one, bind_done peek_top,
      bind_done peek_second, bind_done poke_top, bind_done poke_second]
    exact put_of_push rfl hs

/-- Copying the two top cells is in range. -/
theorem dupPair_implements : Implements (dupPair : Raw (Stack kind) Unit) Stack.dupPair := by
  rintro ⟨_ | ⟨y, _ | ⟨x, rest⟩⟩, _ | _ | room⟩ hs
  iterate 6 rfl
  · rw [dupPair, bind_done requireDepth_two, bind_halted (requireRoom_of_lt Nat.zero_lt_two)]
    rfl
  · rw [dupPair, bind_done requireDepth_two, bind_halted (requireRoom_of_lt Nat.one_lt_two)]
    rfl
  · have hpush : (⟨y :: x :: rest, room + 2⟩ : Stack kind).push x =
        .ok ⟨x :: y :: x :: rest, room + 1⟩ := rfl
    rw [dupPair, bind_done requireDepth_two, bind_done (requireRoom_of_le (Nat.le_add_left _ _)),
      bind_done peek_second, bind_done peek_top, bind_done (put_of_push hpush hs)]
    exact put_of_push rfl (Stack.capacity_push hpush ▸ hs)

/-- Removing the two top cells is in range. -/
theorem dropPair_implements : Implements (dropPair : Raw (Stack kind) Unit) Stack.dropPair := by
  rintro ⟨_ | ⟨y, _ | ⟨x, rest⟩⟩, room⟩ _
  · rfl
  · rfl
  · rw [dropPair, bind_done requireDepth_two, bind_done take_top, bind_done take_top]
    rfl

end ThreadedForth.Raw
