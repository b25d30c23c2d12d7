import ThreadedForth.Proofs.RawMemory

/-!
# Primitives made of raw accesses

The remaining words as checks followed by raw accesses, and with them every primitive. On an
addressable machine no primitive makes an access out of range, and its accesses do what the
primitive does.
-/

namespace ThreadedForth.Raw

section Control

/-- Move the top cell to the return stack. -/
def toReturn : Raw Machine Unit := do
  onData (requireDepth 1)
  onReturns (requireRoom 1)
  onReturns (put (← onData take))

/-- Move the top cell of the return stack back. -/
def fromReturn : Raw Machine Unit := do
  onReturns (requireDepth 1)
  onData (requireRoom 1)
  onData (put (← onReturns take))

/-- Copy the top cell of the return stack. -/
def copyReturn : Raw Machine Unit := do
  onReturns (requireDepth 1)
  onData (requireRoom 1)
  onData (put (← onReturns (peek 0)))

/-- Call the threaded code at an address. -/
def call (body : Nat) : Raw Machine Unit := do
  onReturns (requireRoom 1)
  onReturns (put (saveCursor (← look Machine.cursor)))
  revise fun m => { m with cursor := some (UInt64.ofNat body) }

/-- Return from a call. -/
def exitWord : Raw Machine Unit := do
  onReturns (requireDepth 1)
  let saved ← onReturns take
  revise fun m => { m with cursor := restoreCursor saved }

/-- The cursor's address together with its position in data space. -/
def operandSlot : Raw Machine (Cell × Nat) := do
  match ← look Machine.cursor with
  | none => refuse .noInstructions
  | some slot => return (slot, ← check (·.space.cellAddress slot))

/-- The address of the cell after a slot. -/
def following (slot : Cell) : Raw Machine Cell := do
  return UInt64.ofNat (← load fun _ => addWord slot.toNat cellSize)

/-- Push the operand. -/
def literalWord : Raw Machine Unit := do
  let slot ← operandSlot
  onData (requireRoom 1)
  onData (put (← onSpace (loadCell slot.2)))
  let target ← following slot.1
  revise fun m => { m with cursor := some target }

/-- The target of a branch whose offset is the operand. -/
def target (slot : Cell × Nat) : Raw Machine Cell := do
  let offset ← onSpace (loadCell slot.2)
  check fun _ => branchTarget slot.1 offset

/-- Move the cursor by the operand. -/
def branchWord : Raw Machine Unit := do
  let slot ← operandSlot
  let target ← target slot
  revise fun m => { m with cursor := some target }

/-- Move the cursor by the operand if the top cell is zero, and past it otherwise. -/
def zeroBranchWord : Raw Machine Unit := do
  onData (requireDepth 1)
  let slot ← operandSlot
  let x ← onData (peek 0)
  let target ← if x = 0 then target slot else following slot.1
  let _ ← onData take
  revise fun m => { m with cursor := some target }

/-- Moving a cell to the return stack is in range. -/
theorem toReturn_realizes : Realizes toReturn (Effect.onStacks Stack.toReturn) := by
  refine realizes_change fun m hm => ?_
  simp only [Stack.toReturn, bind_assoc, pure_bind]
  refine requireOne_bind rfl fun x rest room hdata =>
    requirePush_bind rfl fun cells free hreturns => ?_
  have hcapacity := hm.returns
  rw [hreturns] at hcapacity
  rw [bind_done (onData_done hdata take_top)]
  exact onReturns_done hreturns (put_of_push rfl hcapacity)

/-- Moving a cell back from the return stack is in range. -/
theorem fromReturn_realizes : Realizes fromReturn (Effect.onStacks Stack.fromReturn) := by
  refine realizes_change fun m hm => ?_
  simp only [Stack.fromReturn, bind_assoc, pure_bind]
  refine requireOne_bind rfl fun x rest free hreturns =>
    requirePush_bind rfl fun cells room hdata => ?_
  have hcapacity := hm.data
  rw [hdata] at hcapacity
  rw [bind_done (onReturns_done hreturns take_top)]
  exact onData_done hdata (put_of_push rfl hcapacity)

/-- Copying a cell of the return stack is in range. -/
theorem copyReturn_realizes : Realizes copyReturn (Effect.onStacks Stack.copyReturn) := by
  refine realizes_change fun m hm => ?_
  simp only [Stack.copyReturn, bind_assoc, pure_bind]
  refine requireOne_bind rfl fun x rest free hreturns =>
    requirePush_bind rfl fun cells room hdata => ?_
  have hcapacity := hm.data
  rw [hdata] at hcapacity
  rw [bind_done (onReturns_read hreturns peek_top)]
  exact onData_done hdata (put_of_push rfl hcapacity)

/-- Calling threaded code is in range. -/
theorem call_run (body : Nat) {m : Machine} (hm : m.Addressable) :
    (call body).run m = .ofChange m (m.call body) := by
  refine requirePush_bind rfl fun cells room hreturns => ?_
  have hcapacity := hm.returns
  rw [hreturns] at hcapacity
  rw [bind_look, bind_done (onReturns_done hreturns (put_of_push rfl hcapacity))]
  rfl

/-- Returning from a call is in range. -/
theorem exitWord_realizes : Realizes exitWord (Effect.change Machine.exitWord) := by
  refine realizes_change fun m _ => requireOne_bind rfl fun x rest room hreturns => ?_
  rw [bind_done (onReturns_done hreturns take_top)]
  rfl

variable {m : Machine} {slot : Cell} {position : Nat}

/-- The operand's slot is found exactly when the operand is, and refused for the same reason. -/
theorem operandSlot_run (m : Machine) :
    (∃ slot position, m.space.cellAddress slot = .ok position ∧
      operandSlot.run m = .done (slot, position) m ∧
      m.operand = .ok (slot, m.space.cellAt position)) ∨
    ∃ cause, operandSlot.run m = .halted (.fault cause) m ∧ m.operand = .error cause := by
  rw [operandSlot, bind_look, Machine.operand]
  cases m.cursor with
  | none => exact .inr ⟨_, rfl, rfl⟩
  | some slot =>
      dsimp only [DataSpace.fetch]
      cases haddress : m.space.cellAddress slot with
      | error cause => exact .inr ⟨cause, bind_halted (check_error haddress), rfl⟩
      | ok position => exact .inl ⟨slot, position, haddress, bind_done (check_ok haddress), rfl⟩

/-- A word with an operand goes on where there is one. -/
theorem operandSlot_bind {next : Cell × Nat → Raw Machine Unit}
    {f : Cell × Cell → Except Fault Machine}
    (h : ∀ slot position, m.space.cellAddress slot = .ok position →
      (next (slot, position)).run m = .ofChange m (f (slot, m.space.cellAt position))) :
    (operandSlot >>= next).run m = .ofChange m (m.operand >>= f) := by
  obtain ⟨slot, position, haddress, hslot, hoperand⟩ | ⟨cause, hslot, hoperand⟩ := operandSlot_run m
  · rw [bind_done hslot, hoperand]
    exact h slot position haddress
  · rw [bind_halted hslot, hoperand]
    rfl

/-- The cell after a slot of data space has an address. -/
theorem following_run (hm : m.Addressable) (h : m.space.cellAddress slot = .ok position)
    (n : Machine) : (following slot).run n = .done (slot + 8) n := by
  have hle := DataSpace.cellAddress_le h
  have hspace := hm.space
  rw [DataSpace.cellAddress_toNat h] at hle
  have hadd : addWord slot.toNat cellSize = some (slot.toNat + cellSize) := if_pos (by omega)
  have hnext : UInt64.ofNat (slot.toNat + cellSize) = slot + 8 := by
    rw [UInt64.ofNat_add, UInt64.ofNat_toNat]
    rfl
  rw [following, ← hnext]
  exact bind_done (load_some hadd)

/-- The operand is read in range. -/
theorem loadOperand_run (hm : m.Addressable) (h : m.space.cellAddress slot = .ok position) :
    (onSpace (loadCell position)).run m = .done (m.space.cellAt position) m :=
  onSpace_read (loadCell_of_le (DataSpace.cellAddress_le h) hm.space)

/-- Pushing the operand is in range. -/
theorem literalWord_realizes : Realizes literalWord (Effect.change Machine.literalWord) := by
  refine realizes_change fun m hm => operandSlot_bind fun slot position haddress =>
    requirePush_bind rfl fun cells room hdata => ?_
  have hcapacity := hm.data
  rw [hdata] at hcapacity
  rw [bind_done (loadOperand_run hm haddress),
    bind_done (onData_done hdata (put_of_push rfl hcapacity)),
    bind_done (following_run hm haddress _)]
  rfl

/-- A word that branches goes on where there is a target. -/
theorem target_bind (hm : m.Addressable) (haddress : m.space.cellAddress slot = .ok position)
    {next : Cell → Raw Machine Unit} {f : Cell → Except Fault Machine}
    (h : ∀ target, (next target).run m = .ofChange m (f target)) :
    (target (slot, position) >>= next).run m =
      .ofChange m (branchTarget slot (m.space.cellAt position) >>= f) := by
  have hload := loadOperand_run hm haddress
  cases htarget : branchTarget slot (m.space.cellAt position) with
  | error cause =>
      have hrun : (target (slot, position)).run m = .halted (.fault cause) m := by
        rw [target, bind_done hload]
        exact check_error htarget
      exact bind_halted hrun
  | ok address =>
      have hrun : (target (slot, position)).run m = .done address m := by
        rw [target, bind_done hload]
        exact check_ok htarget
      rw [bind_done hrun]
      exact h address

/-- Moving the cursor by the operand is in range. -/
theorem branchWord_realizes : Realizes branchWord (Effect.change Machine.branchWord) := by
  refine realizes_change fun m hm => operandSlot_bind fun slot position haddress => ?_
  refine target_bind hm haddress fun address => ?_
  rfl

/-- Moving the cursor by the operand or past it is in range. -/
theorem zeroBranchWord_realizes :
    Realizes zeroBranchWord (Effect.change Machine.zeroBranchWord) := by
  refine realizes_change fun m hm => requireOne_bind rfl fun x rest room hdata =>
    operandSlot_bind fun slot position haddress => ?_
  rw [bind_done (onData_read hdata peek_top)]
  by_cases hx : x = 0
  · simp only [if_pos hx]
    refine target_bind hm haddress fun address => ?_
    rw [bind_done (onData_done hdata take_top)]
    rfl
  · simp only [if_neg hx]
    rw [bind_done (following_run hm haddress _), bind_done (onData_done hdata take_top)]
    rfl

end Control

section Lookup

/-- Look up a counted string. -/
def findWord : Raw Machine Unit := do
  onData (requireDepth 1)
  let address ← onData (peek 0)
  let counter ← check (·.space.byteAddress address)
  let length ← onSpace (loadByte counter)
  let start ← check (·.space.byteRange (address + 1) length.toNat)
  let name ← onSpace (loadBytes start length.toNat)
  match ← look (·.dictionary.find? name) with
  | none => onData (poke 0 0)
  | some token =>
      let immediate ← look fun m => (m.dictionary.get? token).any (·.immediate)
      replaceTop (UInt64.ofNat token) (if immediate then 1 else Cell.ofFlag true)

/-- Push the token of the newest definition. -/
def latestWord : Raw Machine Unit := do
  onData (requireRoom 1)
  match ← look (·.dictionary.latest?) with
  | some token => onData (put (UInt64.ofNat token))
  | none => refuse (.unknownIndex 0 0)

/-- Hide a visible definition and show a hidden one. -/
def hiddenWord : Raw Machine Unit := do
  onData (requireDepth 1)
  let token ← onData (peek 0)
  let definition ← check (·.resolve token)
  let _ ← onData take
  revise fun m => { m with
    dictionary := m.dictionary.modify token.toNat fun d => { d with hidden := !definition.hidden } }

/-- Replace a token by the address of its definition's body. -/
def bodyWord : Raw Machine Unit := do
  onData (requireDepth 1)
  let token ← onData (peek 0)
  let definition ← check (·.resolve token)
  onData (poke 0 (UInt64.ofNat definition.body))

/-- Enter or leave the compilation state. -/
def setCompiling (compiling : Bool) : Raw Machine Unit :=
  onSpace (saveCell stateAddress (Cell.ofFlag compiling))

/-- Looking up a counted string is in range. -/
theorem findWord_realizes : Realizes findWord (Effect.change Machine.findWord) := by
  refine realizes_change fun m hm => requireOne_bind rfl fun address rest room hdata => ?_
  rw [bind_done (onData_read hdata peek_top)]
  simp only [DataSpace.fetchByte, DataSpace.fetchBytes, bind_assoc, pure_bind]
  refine check_bind fun counter hcounter => ?_
  rw [bind_done (onSpace_read (loadByte_of_lt (DataSpace.byteRange_le hcounter)))]
  refine check_bind fun start hstart => ?_
  rw [bind_done (onSpace_read (loadBytes_of_le (DataSpace.byteRange_le hstart) hm.space)),
    bind_look]
  cases m.dictionary.find? (m.space.bytesAt start (m.space.byteAt counter).toNat) with
  | none => exact onData_done hdata poke_top
  | some token =>
      dsimp only
      rw [bind_look]
      exact replaceTop_run _ _ address hdata hm

/-- Pushing the newest token is in range. -/
theorem latestWord_realizes : Realizes latestWord (Effect.change Machine.latestWord) := by
  refine realizes_change fun m hm => ?_
  have hcapacity := hm.data
  rw [latestWord, Machine.latestWord, Stack.requireRoom]
  rcases hdata : m.data with ⟨cells, _ | room⟩
  · exact bind_halted (onData_halted hdata requireRoom_full)
  · rw [hdata] at hcapacity
    rw [bind_done (onData_read hdata requireRoom_one), bind_look]
    cases m.dictionary.latest? with
    | none => rfl
    | some token =>
        change _ = Ending.ofChange m (m.push (UInt64.ofNat token))
        rw [Machine.push, hdata]
        exact onData_done hdata (put_of_push rfl hcapacity)

/-- Toggling a definition is in range. -/
theorem hiddenWord_realizes : Realizes hiddenWord (Effect.change Machine.hiddenWord) := by
  refine realizes_change fun m _ => requireOne_bind rfl fun token rest room hdata => ?_
  rw [bind_done (onData_read hdata peek_top)]
  refine check_bind fun definition hdefinition => ?_
  rw [bind_done (onData_done hdata take_top), Machine.setHidden, hdefinition]
  rfl

/-- Reading a definition's body is in range. -/
theorem bodyWord_realizes : Realizes bodyWord (Effect.change Machine.bodyWord) := by
  refine realizes_change fun m _ => requireOne_bind rfl fun token rest room hdata => ?_
  rw [bind_done (onData_read hdata peek_top)]
  refine check_bind fun definition _ => ?_
  exact onData_done hdata poke_top

/-- Writing the compilation state is in range. -/
theorem setCompiling_realizes (compiling : Bool) :
    Realizes (setCompiling compiling) (Effect.change fun m => m.setCompiling compiling) := by
  refine realizes_change fun m hm => onSpace_done (saveCell_of_le _ ?_ hm.space)
  have hsystem := hm.system
  simp only [Config.systemArea, inputAddress, stateAddress, cellSize] at hsystem ⊢
  omega

end Lookup

section Console

/-- A word that makes no access to a bounded area. -/
def plain (effect : Effect) : Raw Machine Unit := fun m => .ofRun (some (effect m))

/-- Write bytes. -/
def writeBytes (bytes : List UInt8) : Raw Machine Unit :=
  plain fun m => m.writeThen bytes (.done ())

/-- Read a line. -/
def readLine : Raw Machine (List UInt8) := fun m =>
  match m.console.input.readLine with
  | (.error message, input) =>
      .halted (.fault (.io message)) { m with console := { m.console with input := input } }
  | (.ok line, input) => .done line { m with console := { m.console with input := input } }

/-- Write the low byte of a cell. -/
def emitWord : Raw Machine Unit := do
  onData (requireDepth 1)
  let x ← onData (peek 0)
  writeBytes [x.toUInt8]
  let _ ← onData take

/-- Write a range of bytes. -/
def typeWord : Raw Machine Unit := do
  onData (requireDepth 2)
  let length ← onData (peek 0)
  let address ← onData (peek 1)
  let position ← check (·.space.byteRange address length.toNat)
  writeBytes (← onSpace (loadBytes position length.toNat))
  let _ ← onData take
  let _ ← onData take

/-- Make bytes the current line, as far as they fit the input buffer, and tell so. -/
def acceptLine (line : List UInt8) : Raw Machine Unit := do
  let kept ← look fun m => line.take m.config.inputBuffer
  revise fun m => m.logLine line
  onSpace (saveBytes inputAddress kept)
  revise fun m => { m with lineLength := kept.length }
  onSpace (saveCell toInAddress 0)
  onData (put (Cell.ofFlag true))

/-- Read the next line into the input buffer and tell whether there was one. -/
def refillWord : Raw Machine Unit := do
  onData (requireRoom 1)
  check Machine.flush
  let line ← readLine
  if line.isEmpty then onData (put (Cell.ofFlag false)) else acceptLine (Input.trimLine line)

variable {m : Machine}

/-- After bytes have been written, a word goes on with the machine that has written them. -/
theorem writeBytes_bind {bytes : List UInt8} {next : Unit → Raw Machine Unit}
    {rest : Machine → Outcome Unit}
    (h : ∀ n : Machine, n.data = m.data → (next ()).run n = .ofRun (some (rest n))) :
    (writeBytes bytes >>= next).run m = .ofRun (some (m.writeThen bytes rest)) := by
  have hrun : (writeBytes bytes).run m = .ofRun (some (m.writeThen bytes (.done ()))) := rfl
  unfold Machine.writeThen at hrun ⊢
  split at hrun
  · rw [bind_done hrun]; exact h _ rfl
  · exact bind_halted hrun

/-- Writing a byte is in range. -/
theorem emitWord_realizes : Realizes emitWord Machine.emitWord := by
  intro m _
  rcases hdata : m.data with ⟨_ | ⟨x, rest⟩, room⟩
  · rw [emitWord, Machine.emitWord, hdata]
    exact bind_halted (onData_halted hdata rfl)
  · rw [emitWord, Machine.emitWord, hdata, bind_done (onData_read hdata requireDepth_one),
      bind_done (onData_read hdata peek_top)]
    refine writeBytes_bind fun n hn => ?_
    exact bind_done (onData_done (hn.trans hdata) take_top)

/-- Writing a range of bytes is in range. -/
theorem typeWord_realizes : Realizes typeWord Machine.typeWord := by
  intro m hm
  rw [typeWord, Machine.typeWord_eq]
  rcases hdata : m.data with ⟨_ | ⟨length, _ | ⟨address, rest⟩⟩, room⟩
  · exact bind_halted (onData_halted hdata rfl)
  · exact bind_halted (onData_halted hdata rfl)
  · rw [bind_done (onData_read hdata requireDepth_two), bind_done (onData_read hdata peek_top),
      bind_done (onData_read hdata peek_second)]
    change _ =
      Ending.ofRun (m.checked
        (do return (← m.space.fetchBytes address length.toNat, ⟨rest, room + 2⟩))
      fun taken => some (m.writeThen taken.1 fun n => .done () { n with data := taken.2 }))
    rw [DataSpace.fetchBytes]
    cases hrange : m.space.byteRange address length.toNat with
    | error cause => exact bind_halted (check_error hrange)
    | ok position =>
        have hload : (onSpace (loadBytes position length.toNat)).run m = .done _ m :=
          onSpace_read (loadBytes_of_le (DataSpace.byteRange_le hrange) hm.space)
        have hcheck : (check fun n : Machine => n.space.byteRange address length.toNat).run m =
            .done position m :=
          check_ok hrange
        rw [bind_done hcheck, bind_done hload]
        refine writeBytes_bind fun n hn => ?_
        rw [bind_done (onData_done (hn.trans hdata) take_top)]
        exact bind_done (onData_done rfl take_top)

/-- The part of a line that fits the input buffer is written in range, and so are the parse offset
and the flag. -/
theorem acceptLine_run {line : List UInt8} {cells : List Cell} {room : Nat} (hm : m.Addressable)
    (hdata : m.data = ⟨cells, room + 1⟩) :
    (acceptLine line).run m =
      .ofRun (some (m.attempt ((m.acceptLine line).push (Cell.ofFlag true)))) := by
  have hcapacity := hm.data
  have hsystem : inputAddress + m.config.inputBuffer ≤ m.space.size := hm.system
  have hkept : (line.take m.config.inputBuffer).length ≤ m.config.inputBuffer :=
    List.length_take_le _ _
  have hcell : cellSize ≤ inputAddress := by decide
  rw [hdata] at hcapacity
  obtain ⟨n, hn⟩ : ∃ n, m.logLine line = n := ⟨_, rfl⟩
  have hspace : n.space = m.space := hn ▸ rfl
  have hcells : n.data = ⟨cells, room + 1⟩ := hn ▸ hdata
  have hbytes : (onSpace (saveBytes inputAddress (line.take m.config.inputBuffer))).run n =
      .done () _ :=
    onSpace_done (saveBytes_of_le (by rw [hspace]; omega) (hspace ▸ hm.space))
  have hoffset : (onSpace (saveCell toInAddress 0)).run { n with
      space := n.space.setBytes inputAddress (line.take m.config.inputBuffer)
      lineLength := (line.take m.config.inputBuffer).length } = .done () _ :=
    onSpace_done (saveCell_of_le 0
      (Nat.le_trans hcell (Nat.le_trans (Nat.le_add_right _ _) (hspace ▸ hsystem)))
        (hspace ▸ hm.space))
  have haccept : m.acceptLine line = { n with
      space := (n.space.setBytes inputAddress (line.take m.config.inputBuffer)).setCell toInAddress
        0
      lineLength := (line.take m.config.inputBuffer).length } := by
    rw [hspace, ← hn, Machine.acceptLine]
  rw [acceptLine, bind_look, bind_revise, hn, bind_done hbytes, bind_revise, bind_done hoffset,
    Ending.ofRun_attempt, haccept, Machine.push]
  change _ = Ending.ofChange m (n.data.push (Cell.ofFlag true) >>= _)
  rw [hcells]
  exact onData_done rfl (put_of_push rfl hcapacity)

/-- After a line has been read, a word goes on with the machine that has read it. -/
theorem readLine_bind {next : List UInt8 → Raw Machine Unit}
    (rest : List UInt8 → Machine → Outcome Unit) (hm : m.Addressable)
    (h : ∀ line (n : Machine), n.data = m.data → n.Addressable →
      (next line).run n = .ofRun (some (rest line n))) :
    (readLine >>= next).run m = .ofRun (some (match m.console.input.readLine with
      | (.error message, input) =>
          .halted (.fault (.io message)) { m with console := { m.console with input := input } }
      | (.ok line, input) =>
          rest line { m with console := { m.console with input := input } })) := by
  rcases hread : m.console.input.readLine with ⟨message | line, input⟩
  · have hline : readLine.run m = .halted (.fault (.io message))
        { m with console := { m.console with input := input } } := by
      rw [run, readLine, hread]
    exact bind_halted hline
  · have hline : readLine.run m =
        .done line { m with console := { m.console with input := input } } := by
      rw [run, readLine, hread]
    rw [bind_done hline]
    exact h line _ rfl ⟨hm.data, hm.returns, hm.space, hm.here, hm.system, hm.line⟩

/-- Reading a line into the input buffer is in range. -/
theorem refillWord_realizes : Realizes refillWord Machine.refillWord := by
  intro m hm
  obtain ⟨⟨cells, room⟩, hdata⟩ : ∃ data, m.data = data := ⟨_, rfl⟩
  rw [refillWord, Machine.refillWord]
  cases room with
  | zero =>
      have hready : m.data.requireRoom 1 = .error (.stackOverflow .data cells.length) := by
        rw [hdata]; rfl
      rw [hready]
      exact bind_halted (onData_halted hdata requireRoom_full)
  | succ room =>
      have hready : m.data.requireRoom 1 = .ok () := by rw [hdata]; rfl
      rw [bind_done (onData_read hdata requireRoom_one), hready]
      cases hflush : m.flush with
      | error cause => exact bind_halted (check_error hflush)
      | ok _ =>
          rw [bind_done (check_ok hflush)]
          refine readLine_bind (fun line n =>
            if line.isEmpty then n.attempt (n.push (Cell.ofFlag false))
            else n.attempt ((n.acceptLine (Input.trimLine line)).push (Cell.ofFlag true))) hm ?_
          intro line n hn haddressable
          have hcapacity := haddressable.data
          rw [hn, hdata] at hcapacity
          by_cases hempty : line.isEmpty
          · rw [if_pos hempty, if_pos hempty, Ending.ofRun_attempt, Machine.push, hn, hdata]
            exact onData_done (hn.trans hdata) (put_of_push rfl hcapacity)
          · rw [if_neg hempty, if_neg hempty]
            exact acceptLine_run haddressable (hn.trans hdata)

end Console

section Environment

/-- Replace an index by address and length of that argument. -/
def argumentWord : Raw Machine Unit := do
  onData (requireDepth 1)
  let index ← onData (peek 0)
  match ← look (·.spans[index.toNat]?) with
  | some span => replaceTop (UInt64.ofNat span.address) (UInt64.ofNat span.length)
  | none => refuse (.unknownIndex index.toNat (← look (·.spans.length)))

/-- Wait for a number of milliseconds. -/
def waitWord : Raw Machine Unit := do
  onData (requireDepth 1)
  let milliseconds ← onData take
  revise fun m => { m with clock := { m.clock with waited := m.clock.waited + milliseconds.toNat } }

/-- Replacing an index by an argument is in range. -/
theorem argumentWord_realizes : Realizes argumentWord (Effect.change Machine.argumentWord) := by
  refine realizes_change fun m hm => requireOne_bind rfl fun index rest room hdata => ?_
  rw [bind_done (onData_read hdata peek_top), bind_look]
  dsimp only
  cases m.spans[index.toNat]? with
  | none => rfl
  | some span => exact replaceTop_run _ _ index hdata hm

/-- Waiting is in range. -/
theorem waitWord_realizes : Realizes waitWord (Effect.change Machine.waitWord) := by
  refine realizes_change fun m _ => requireOne_bind rfl fun milliseconds rest room hdata => ?_
  rw [bind_done (onData_done hdata take_top)]
  rfl

end Environment

/-- What a primitive does by raw accesses, given what the word that invokes a token from the stack
does. -/
def primitive (executeTop : Raw Machine Unit) : Primitive → Raw Machine Unit
  | .depth => pushWord fun m => [UInt64.ofNat m.data.depth]
  | .drop => onData drop
  | .dup => onData dup
  | .over => onData copySecond
  | .swap => onData swap
  | .rot => onData rot
  | .pick => onData pick
  | .roll => onData roll
  | .questionDup => onData dupNonzero
  | .nip => onData nip
  | .tuck => onData tuck
  | .twoDup => onData dupPair
  | .twoDrop => onData dropPair
  | .toR => toReturn
  | .rFrom => fromReturn
  | .rFetch => copyReturn
  | .store => storeWord
  | .fetch => fetchWord
  | .cStore => storeByteWord
  | .cFetch => fetchByteWord
  | .here => pushWord fun m => [UInt64.ofNat m.space.here]
  | .allot => allotWord
  | .align => alignWord
  | .aligned => onData (unary Cell.alignWrapping)
  | .cellPlus => onData (unary (· + 8))
  | .cells => onData (unary (· * 8))
  | .unused => pushWord fun m => [UInt64.ofNat m.space.unused]
  | .comma => commaWord
  | .cComma => byteCommaWord
  | .plus => onData (binary (· + ·))
  | .minus => onData (binary (· - ·))
  | .star => onData (binary (· * ·))
  | .slash => onData (divide Cell.quotient)
  | .slashMod => onData (divideBoth Cell.remainder Cell.quotient)
  | .mod => onData (divide Cell.remainder)
  | .negate => onData (unary (0 - ·))
  | .onePlus => onData (unary (· + 1))
  | .oneMinus => onData (unary (· - 1))
  | .and => onData (binary (· &&& ·))
  | .or => onData (binary (· ||| ·))
  | .xor => onData (binary (· ^^^ ·))
  | .invert => onData (unary (~~~ ·))
  | .lShift => onData (binary Cell.shiftLeft)
  | .rShift => onData (binary Cell.shiftRight)
  | .equals => onData (binary Cell.equal)
  | .less => onData (binary Cell.less)
  | .greater => onData (binary fun x y => y.less x)
  | .uLess => onData (binary Cell.lessUnsigned)
  | .notEquals => onData (binary Cell.differ)
  | .zeroEquals => onData (unary (Cell.equal · 0))
  | .zeroLess => onData (unary (Cell.less · 0))
  | .exit => exitWord
  | .literal => literalWord
  | .branch => branchWord
  | .zeroBranch => zeroBranchWord
  | .execute => executeTop
  | .find => findWord
  | .words => plain Machine.wordsWord
  | .latest => latestWord
  | .immediate => plain (Effect.change Machine.immediateWord)
  | .hidden => hiddenWord
  | .toBody => bodyWord
  | .state => pushWord fun _ => [UInt64.ofNat stateAddress]
  | .leftBracket => setCompiling false
  | .rightBracket => setCompiling true
  | .emit => emitWord
  | .type => typeWord
  | .cr => plain Machine.newlineWord
  | .toIn => pushWord fun _ => [UInt64.ofNat toInAddress]
  | .source => pushWord fun m => [UInt64.ofNat inputAddress, UInt64.ofNat m.lineLength]
  | .refill => refillWord
  | .argCount => pushWord fun m => [UInt64.ofNat m.spans.length]
  | .arg => argumentWord
  | .bye => plain Machine.byeWord
  | .ms => waitWord
  | .timeAndDate => pushWord fun m => m.clock.localTime.fields.map UInt64.ofNat
  | .utcTimeAndDate => pushWord fun m => m.clock.universalTime.fields.map UInt64.ofNat

/-- No primitive makes an access out of range, and its accesses do what the primitive does. -/
theorem primitive_realizes (executeTop : Raw Machine Unit) {p : Primitive} {effect : Effect}
    (h : p.effect? = some effect) : Realizes (primitive executeTop p) effect := by
  cases p <;> cases h
  case drop => exact drop_implements.realizes
  case dup => exact dup_implements.realizes
  case swap => exact swap_implements.realizes
  case rot => exact rot_implements.realizes
  case pick => exact pick_implements.realizes
  case roll => exact roll_implements.realizes
  case questionDup => exact dupNonzero_implements.realizes
  case nip => exact nip_implements.realizes
  case tuck => exact tuck_implements.realizes
  case twoDup => exact dupPair_implements.realizes
  case twoDrop => exact dropPair_implements.realizes
  case toR => exact toReturn_realizes
  case rFrom => exact fromReturn_realizes
  case rFetch => exact copyReturn_realizes
  case store => exact storeWord_realizes
  case fetch => exact fetchWord_realizes
  case cStore => exact storeByteWord_realizes
  case cFetch => exact fetchByteWord_realizes
  case allot => exact allotWord_realizes
  case align => exact alignWord_realizes
  case comma => exact commaWord_realizes
  case cComma => exact byteCommaWord_realizes
  case slash | mod => exact (divide_implements _).realizes
  case slashMod => exact (divideBoth_implements _ _).realizes
  case aligned | cellPlus | cells | negate | onePlus | oneMinus | invert | zeroEquals | zeroLess =>
    exact (unary_implements _).realizes
  case plus | minus | star | and | or | xor | lShift | rShift | equals | less | greater | uLess
      | notEquals =>
    exact (binary_implements _).realizes
  case exit => exact exitWord_realizes
  case literal => exact literalWord_realizes
  case branch => exact branchWord_realizes
  case zeroBranch => exact zeroBranchWord_realizes
  case find => exact findWord_realizes
  case latest => exact latestWord_realizes
  case hidden => exact hiddenWord_realizes
  case toBody => exact bodyWord_realizes
  case leftBracket | rightBracket => exact setCompiling_realizes _
  case emit => exact emitWord_realizes
  case type => exact typeWord_realizes
  case refill => exact refillWord_realizes
  case arg => exact argumentWord_realizes
  case ms => exact waitWord_realizes
  case depth | here | unused | state | toIn | argCount => exact pushWord_realizes_push _
  case source | timeAndDate | utcTimeAndDate => exact pushWord_realizes _
  case words | immediate | cr | bye => exact fun _ _ => rfl
  all_goals exact copySecond_implements.realizes

end ThreadedForth.Raw
