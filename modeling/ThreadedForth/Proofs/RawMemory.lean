import ThreadedForth.Proofs.RawStack

/-!
# Data space by raw accesses

Handing out, reading and writing data space, as checks followed by raw accesses, and the words that
do so. On an addressable machine none of these accesses is out of range, and what they do is what
the word does: they give the same machine, or halt for the same reason and leave the same machine
behind.
-/

namespace ThreadedForth

namespace Raw

section Space

/-- The number of bytes up to a cell boundary. -/
def padding : Raw DataSpace Nat := do
  check DataSpace.requireHere
  let here ← look DataSpace.here
  match Cell.alignUp? (UInt64.ofNat here) with
  | some boundary => load fun _ => subWord boundary.toNat here
  | none => refuse (.invalidHere here (← look DataSpace.size))

/-- Move `here` up to a cell boundary. -/
def align : Raw DataSpace Unit := do
  let length ← padding
  check (·.requireSpace length)
  allot length

/-- Hand out bytes and fill them. -/
def appendBytes (bytes : List UInt8) : Raw DataSpace Unit := do
  check (·.requireSpace bytes.length)
  saveBytes (← look DataSpace.here) bytes
  allot bytes.length

/-- Hand out a cell and fill it; `here` must be on a cell boundary. -/
def appendCell (x : Cell) : Raw DataSpace Unit := do
  check fun s => requireAligned (UInt64.ofNat s.here)
  check (·.requireSpace cellSize)
  saveCell (← look DataSpace.here) x
  allot cellSize

/-- Hand out two cells and fill them, having made sure of the space for both. -/
def appendPair (x y : Cell) : Raw DataSpace Unit := do
  check fun s => requireAligned (UInt64.ofNat s.here)
  check (·.requireSpace (2 * cellSize))
  appendCell x
  appendCell y

variable {s : DataSpace}

/-- While a byte remains, the distance to a cell boundary is a machine word. -/
theorem padding_run (hhere : s.here < s.size) (hs : s.size + cellSize < UInt64.size) :
    padding.run s = .done (alignUp s.here - s.here) s := by
  have hlt := alignUp_lt s.here
  have hle := le_alignUp s.here
  have htoNat : (UInt64.ofNat s.here).toNat = s.here := UInt64.toNat_ofNat_of_lt' (by omega)
  have hboundary : (UInt64.ofNat (alignUp s.here)).toNat = alignUp s.here :=
    UInt64.toNat_ofNat_of_lt' (by omega)
  have halign : Cell.alignUp? (UInt64.ofNat s.here) = some (UInt64.ofNat (alignUp s.here)) := by
    rw [Cell.alignUp?_eq, htoNat]
    exact if_pos (by omega)
  have hcheck : s.requireHere = .ok () := if_neg (by omega)
  rw [padding, bind_done (check_ok hcheck)]
  change Raw.run (match Cell.alignUp? (UInt64.ofNat s.here) with | some boundary => _ | none => _)
    s = _
  rw [halign]
  refine load_some ?_
  rw [hboundary, subWord, if_pos hle]

/-- Moving `here` up to a cell boundary is in range. -/
theorem align_run (hhere : s.here < s.size) (hs : s.size + cellSize < UInt64.size) :
    align.run s = .ofChange s s.align := by
  rw [align, bind_done (padding_run hhere hs)]
  refine check_bind fun _ hspace => allot_of_lt ?_
  have := DataSpace.requireSpace_eq_ok.mp hspace
  omega

/-- Handing out bytes and filling them is in range. -/
theorem appendBytes_run (bytes : List UInt8) (hs : s.size + cellSize < UInt64.size) :
    (appendBytes bytes).run s = .ofChange s (s.append bytes) := by
  rw [appendBytes, DataSpace.append_eq]
  refine check_bind fun _ hspace => ?_
  have hlt := DataSpace.requireSpace_eq_ok.mp hspace
  rw [bind_look, bind_done (saveBytes_of_le (by omega) hs)]
  exact allot_of_lt (Nat.lt_trans hlt (by omega))

/-- Handing out a cell and filling it is in range. -/
theorem appendCell_run (x : Cell) (hs : s.size + cellSize < UInt64.size) :
    (appendCell x).run s = .ofChange s (s.appendCells [x]) := by
  rw [DataSpace.appendCells_eq, appendCell]
  refine check_bind fun _ _ => check_bind fun _ hspace => ?_
  have hlt := DataSpace.requireSpace_eq_ok.mp hspace
  rw [bind_look, bind_done (saveCell_of_le x (by omega) hs)]
  rw [List.flatMap_singleton]
  exact allot_of_lt (Nat.lt_trans hlt (by omega))

/-- Handing out two cells and filling them is in range. The checks made for each of them pass, and
the two cells end up where cells appended at once do. -/
theorem appendPair_run (x y : Cell) (hs : s.size + cellSize < UInt64.size) :
    (appendPair x y).run s = .ofChange s (s.appendCells [x, y]) := by
  have hcell : cellSize = 8 := rfl
  rw [DataSpace.appendCells_eq, appendPair]
  refine check_bind fun _ halign => check_bind fun _ hspace => ?_
  have hlt : s.here + 2 * cellSize < s.size := DataSpace.requireSpace_eq_ok.mp hspace
  have haligned : Cell.isAligned (UInt64.ofNat s.here) = true := by
    unfold requireAligned at halign
    split at halign
    · assumption
    · cases halign
  have hnext : Cell.isAligned (UInt64.ofNat (s.here + cellSize)) = true :=
    isAligned_ofNat.mpr (Nat.dvd_add (isAligned_ofNat.mp haligned) (Nat.dvd_refl _))
  let t : DataSpace :=
    { s with here := s.here + cellSize, memory := s.memory.write s.here x.toBytes }
  have hfirst : s.appendCells [x] = .ok t :=
    DataSpace.appendCells_eq_ok.mpr
      ⟨haligned, DataSpace.append_eq_ok.mpr ⟨by simp; omega, by simp [t]⟩⟩
  have hsecond : t.appendCells [y] = .ok { t with
      here := t.here + cellSize, memory := t.memory.write t.here y.toBytes } :=
    DataSpace.appendCells_eq_ok.mpr
      ⟨hnext, DataSpace.append_eq_ok.mpr ⟨by simp [t]; omega, by simp⟩⟩
  have hx := appendCell_run x hs
  have hy := appendCell_run (s := t) y hs
  rw [hfirst] at hx
  rw [hsecond] at hy
  rw [bind_done hx, hy]
  simp [t, Ending.ofChange, pure, Except.pure, Memory.write_append, Nat.mul_comm, hcell]

end Space

/-- On every addressable machine, raw accesses do what a word does. -/
def Realizes (x : Raw Machine Unit) (effect : Effect) : Prop :=
  ∀ m, m.Addressable → x.run m = .ofRun (some (effect m))

/-- Raw accesses do what a word does that either happens or is refused without effect. -/
theorem realizes_change {x : Raw Machine Unit} {f : Machine → Except Fault Machine}
    (h : ∀ m : Machine, m.Addressable → x.run m = .ofChange m (f m)) :
    Realizes x (Effect.change f) :=
  fun m hm => (h m hm).trans (Ending.ofRun_attempt m (f m)).symm

/-- A word on the data stack alone is carried out as it is on the stack. -/
theorem Implements.realizes {x : Raw (Stack .data) Unit}
    {word : Stack .data → Except Fault (Stack .data)} (h : Implements x word) :
    Realizes (onData x) (Effect.onData word) := by
  refine realizes_change fun m hm => ?_
  have hrun := h m.data hm.data
  cases hword : word m.data with
  | error cause => rw [hword] at hrun; exact onData_halted rfl hrun
  | ok data => rw [hword] at hrun; exact onData_done rfl hrun

section Operands

variable {kind : StackKind} {part : Machine → Stack kind} {replace : Machine → Stack kind → Machine}
  {m : Machine} {next : Unit → Raw Machine Unit}

/-- A word that requires a cell of a stack goes on with a stack that has one. -/
theorem requireOne_bind {f : Cell × Stack kind → Except Fault Machine}
    (hsame : replace m (part m) = m)
    (h : ∀ x rest room, part m = ⟨x :: rest, room⟩ →
    (next ()).run m = .ofChange m (f (x, ⟨rest, room + 1⟩))) :
    (zoom part replace (requireDepth 1) >>= next).run m = .ofChange m ((part m).pop >>= f) := by
  rcases hpart : part m with ⟨_ | ⟨x, rest⟩, room⟩
  · exact bind_halted (zoom_refused hsame hpart rfl)
  · rw [bind_done (zoom_read hsame hpart requireDepth_one)]
    exact h x rest room hpart

/-- A word that requires two operands goes on with a stack that has them. -/
theorem requireTwo_bind {f : Cell × Cell × Stack .data → Except Fault Machine}
    (h : ∀ x y rest room, m.data = ⟨y :: x :: rest, room⟩ →
      (next ()).run m = .ofChange m (f (x, y, ⟨rest, room + 2⟩))) :
    (onData (requireDepth 2) >>= next).run m = .ofChange m (m.data.popPair >>= f) := by
  rcases hdata : m.data with ⟨_ | ⟨y, _ | ⟨x, rest⟩⟩, room⟩
  · exact bind_halted (onData_halted hdata rfl)
  · exact bind_halted (onData_halted hdata rfl)
  · rw [bind_done (onData_read hdata requireDepth_two)]
    exact h x y rest room hdata

/-- A word that requires room for a cell on a stack goes on with a stack that has it. -/
theorem requirePush_bind {x : Cell} {f : Stack kind → Except Fault Machine}
    (hsame : replace m (part m) = m)
    (h : ∀ cells room, part m = ⟨cells, room + 1⟩ →
    (next ()).run m = .ofChange m (f ⟨x :: cells, room⟩)) :
    (zoom part replace (requireRoom 1) >>= next).run m = .ofChange m ((part m).push x >>= f) := by
  rcases hpart : part m with ⟨cells, _ | room⟩
  · exact bind_halted (zoom_refused hsame hpart requireRoom_full)
  · rw [bind_done (zoom_read hsame hpart requireRoom_one)]
    exact h cells room hpart

end Operands

section Memory

/-- Write a cell. -/
def storeWord : Raw Machine Unit := do
  onData (requireDepth 2)
  let address ← onData (peek 0)
  let position ← check (·.space.cellAddress address)
  let x ← onData (peek 1)
  let _ ← onData take
  let _ ← onData take
  onSpace (saveCell position x)

/-- Read a cell. -/
def fetchWord : Raw Machine Unit := do
  onData (requireDepth 1)
  let address ← onData (peek 0)
  let position ← check (·.space.cellAddress address)
  onData (poke 0 (← onSpace (loadCell position)))

/-- Write the low byte of a cell. -/
def storeByteWord : Raw Machine Unit := do
  onData (requireDepth 2)
  let address ← onData (peek 0)
  let position ← check (·.space.byteAddress address)
  let x ← onData (peek 1)
  let _ ← onData take
  let _ ← onData take
  onSpace (saveByte position x.toUInt8)

/-- Read a byte. -/
def fetchByteWord : Raw Machine Unit := do
  onData (requireDepth 1)
  let address ← onData (peek 0)
  let position ← check (·.space.byteAddress address)
  onData (poke 0 (← onSpace (loadByte position)).toUInt64)

/-- Hand out a number of bytes. -/
def allotWord : Raw Machine Unit := do
  onData (requireDepth 1)
  let length ← onData (peek 0)
  check (·.space.requireSpace length.toNat)
  let _ ← onData take
  onSpace (allot length.toNat)

/-- Hand out bytes up to a cell boundary. -/
def alignWord : Raw Machine Unit := onSpace align

/-- Hand out a cell and fill it. -/
def commaWord : Raw Machine Unit := do
  onData (requireDepth 1)
  check fun m => requireAligned (UInt64.ofNat m.space.here)
  check (·.space.requireSpace cellSize)
  let here ← look (·.space.here)
  onSpace (saveCell here (← onData take))
  onSpace (allot cellSize)

/-- Hand out a byte and fill it with the low byte of a cell. -/
def byteCommaWord : Raw Machine Unit := do
  onData (requireDepth 1)
  check (·.space.requireSpace 1)
  let here ← look (·.space.here)
  onSpace (saveByte here (← onData take).toUInt8)
  onSpace (allot 1)

/-- Writing a cell is in range. -/
theorem storeWord_realizes : Realizes storeWord (Effect.change Machine.storeWord) := by
  refine realizes_change fun m hm => requireTwo_bind fun x address rest room hdata => ?_
  rw [bind_done (onData_read hdata peek_top)]
  simp only [DataSpace.store, bind_assoc, pure_bind]
  refine check_bind fun position hposition => ?_
  rw [bind_done (onData_read hdata peek_second), bind_done (onData_done hdata take_top),
    bind_done (onData_done rfl take_top)]
  exact onSpace_done (saveCell_of_le x (DataSpace.cellAddress_le hposition) hm.space)

/-- Reading a cell is in range. -/
theorem fetchWord_realizes : Realizes fetchWord (Effect.change Machine.fetchWord) := by
  refine realizes_change fun m hm => requireOne_bind rfl fun address rest room hdata => ?_
  rw [bind_done (onData_read hdata peek_top)]
  simp only [DataSpace.fetch, bind_assoc, pure_bind]
  refine check_bind fun position hposition => ?_
  rw [bind_done (onSpace_read (loadCell_of_le (DataSpace.cellAddress_le hposition) hm.space))]
  exact onData_done hdata poke_top

/-- Writing a byte is in range. -/
theorem storeByteWord_realizes : Realizes storeByteWord (Effect.change Machine.storeByteWord) := by
  refine realizes_change fun m hm => requireTwo_bind fun x address rest room hdata => ?_
  rw [bind_done (onData_read hdata peek_top)]
  simp only [DataSpace.storeByte, bind_assoc, pure_bind]
  refine check_bind fun position hposition => ?_
  rw [bind_done (onData_read hdata peek_second), bind_done (onData_done hdata take_top),
    bind_done (onData_done rfl take_top)]
  exact onSpace_done (saveByte_of_lt _ (DataSpace.byteRange_le hposition))

/-- Reading a byte is in range. -/
theorem fetchByteWord_realizes : Realizes fetchByteWord (Effect.change Machine.fetchByteWord) := by
  refine realizes_change fun m _ => requireOne_bind rfl fun address rest room hdata => ?_
  rw [bind_done (onData_read hdata peek_top)]
  simp only [DataSpace.fetchByte, bind_assoc, pure_bind]
  refine check_bind fun position hposition => ?_
  rw [bind_done (onSpace_read (loadByte_of_lt (DataSpace.byteRange_le hposition)))]
  exact onData_done hdata poke_top

/-- Handing out bytes is in range. -/
theorem allotWord_realizes : Realizes allotWord (Effect.change Machine.allotWord) := by
  refine realizes_change fun m hm => requireOne_bind rfl fun length rest room hdata => ?_
  have hspace := hm.space
  rw [bind_done (onData_read hdata peek_top)]
  simp only [DataSpace.reserve, bind_assoc, pure_bind]
  refine check_bind fun _ hroom => ?_
  have hlt := DataSpace.requireSpace_eq_ok.mp hroom
  rw [bind_done (onData_done hdata take_top)]
  exact onSpace_done (allot_of_lt (Nat.lt_trans hlt (by omega)))

/-- Handing out bytes up to a cell boundary is in range. -/
theorem alignWord_realizes : Realizes alignWord (Effect.change Machine.alignWord) :=
  realizes_change fun _ hm => onSpace_change (align_run hm.here hm.space)

/-- Handing out a cell and filling it is in range. -/
theorem commaWord_realizes : Realizes commaWord (Effect.change Machine.commaWord) := by
  refine realizes_change fun m hm => requireOne_bind rfl fun x rest room hdata => ?_
  have hspace := hm.space
  simp only [DataSpace.appendCells_eq, bind_assoc, pure_bind, List.flatMap_singleton]
  refine check_bind fun _ _ => check_bind fun _ hroom => ?_
  have hlt := DataSpace.requireSpace_eq_ok.mp hroom
  have hsave : (onSpace (saveCell m.space.here x)).run { m with data := ⟨rest, room + 1⟩ } =
      .done () _ :=
    onSpace_done (saveCell_of_le x (Nat.le_of_lt hlt) hspace)
  rw [bind_look, bind_done (onData_done hdata take_top), bind_done hsave]
  exact onSpace_done (allot_of_lt (Nat.lt_trans hlt (by omega)))

/-- Handing out a byte and filling it is in range. -/
theorem byteCommaWord_realizes : Realizes byteCommaWord (Effect.change Machine.byteCommaWord) := by
  refine realizes_change fun m hm => requireOne_bind rfl fun x rest room hdata => ?_
  have hspace := hm.space
  simp only [DataSpace.append_eq, bind_assoc, pure_bind]
  refine check_bind fun _ hroom => ?_
  have hlt := DataSpace.requireSpace_eq_ok.mp hroom
  have hsave : (onSpace (saveByte m.space.here x.toUInt8)).run { m with data := ⟨rest, room + 1⟩ } =
      .done () _ :=
    onSpace_done (saveByte_of_lt x.toUInt8 (Nat.lt_of_succ_lt hlt))
  rw [bind_look, bind_done (onData_done hdata take_top), bind_done hsave]
  exact onSpace_done (allot_of_lt (Nat.lt_trans hlt (by omega)))

end Memory

section Pushing

/-- Push cells that are computed from the machine. -/
def pushWord (f : Machine → List Cell) : Raw Machine Unit := do
  let cells ← look f
  onData (requireRoom cells.length)
  onData (putAll cells)

/-- Pushing is in range. -/
theorem pushWord_realizes (f : Machine → List Cell) :
    Realizes (pushWord f)
      (Effect.change fun m => do return { m with data := ← m.data.pushAll (f m) }) := by
  refine realizes_change fun m hm => ?_
  rw [pushWord, bind_look]
  by_cases hroom : (f m).length ≤ m.data.room
  · have hpush : m.data.pushAll (f m) = .ok _ := (m.data.pushAll_eq (f m)).trans (if_pos hroom)
    rw [bind_done (onData_read rfl (requireRoom_of_le hroom)), hpush]
    exact onData_done rfl (putAll_of_pushAll hpush hm.data)
  · have hpush : m.data.pushAll (f m) = .error _ := (m.data.pushAll_eq (f m)).trans (if_neg hroom)
    rw [bind_halted (onData_halted rfl (requireRoom_of_lt (Nat.lt_of_not_le hroom))), hpush]
    rfl

/-- Pushing one cell is in range. -/
theorem pushWord_realizes_push (f : Machine → Cell) :
    Realizes (pushWord fun m => [f m]) (Effect.change fun m => m.push (f m)) := by
  intro m hm
  have hsingle : m.data.pushAll [f m] = m.data.push (f m) := by
    change (m.data.push (f m) >>= fun t => .ok t) = _
    cases m.data.push (f m) <;> rfl
  rw [pushWord_realizes _ m hm, Effect.change, Effect.change, hsingle]
  rfl

/-- Replace the top cell by two cells. -/
def replaceTop (x y : Cell) : Raw Machine Unit := do
  onData (requireRoom 1)
  onData (poke 0 x)
  onData (put y)

/-- Replacing the top cell by two cells is in range. -/
theorem replaceTop_run {m : Machine} (x y z : Cell) {rest : List Cell} {room : Nat}
    (hdata : m.data = ⟨z :: rest, room⟩) (hm : m.Addressable) : (replaceTop x y).run m =
      .ofChange m (do return { m with data := ← Stack.pushAll ⟨rest, room + 1⟩ [x, y] }) := by
  have hcapacity := hm.data
  rw [hdata] at hcapacity
  rw [replaceTop]
  cases room with
  | zero =>
      rw [bind_halted (onData_halted hdata requireRoom_full)]
      rfl
  | succ room =>
      rw [bind_done (onData_read hdata requireRoom_one), bind_done (onData_done hdata poke_top)]
      exact onData_done rfl (put_of_push rfl hcapacity)

end Pushing

end Raw

end ThreadedForth
