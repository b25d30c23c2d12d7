import ThreadedForth.Proofs.CodeFrame
import ThreadedForth.Proofs.Control

/-!
# Steps through threaded code

What single steps do at cells whose contents are known, and how steps add up to what the stepping
loop does. The loop ends where the cursor is a given one, so what counts is a run of successful
steps none of which starts there. The steps considered run no host program, so the way in which host
programs are carried out does not matter.
-/

namespace ThreadedForth

/-- The same outcome with the control state replaced, after success and after a halt by different
ones. -/
def Outcome.withControls {α : Type} (done halted : Control) : Outcome α → Outcome α
  | .done value m => .done value (m.withControl done)
  | .halted reason m => .halted reason (m.withControl halted)

namespace Machine

variable {stop : Option Cell} {m n o : Machine}

/-- Successful steps from one machine to another, none of which starts at a given cursor. -/
inductive Reaches (stop : Option Cell) : Machine → Machine → Prop where
  | refl (m : Machine) : Reaches stop m m
  | step {m n o : Machine} :
      m.cursor ≠ stop → (∀ host, m.step host = some (.done () n)) → Reaches stop n o →
      Reaches stop m o

/-- One step reaches the machine that it leaves. -/
theorem Reaches.single (hcursor : m.cursor ≠ stop)
    (hstep : ∀ host, m.step host = some (.done () n)) :
    Reaches stop m n := .step hcursor hstep (.refl n)

/-- Steps compose. -/
theorem Reaches.trans (hmn : Reaches stop m n) (hno : Reaches stop n o) : Reaches stop m o := by
  induction hmn with
  | refl _ => exact hno
  | step hcursor hstep _ ih => exact .step hcursor hstep (ih hno)

/-- The stepping loop goes through every machine that is reached, with a budget that is large
enough. -/
theorem Reaches.stepUntil_eq (h : Reaches stop m n) :
    ∃ count, ∀ host budget, m.stepUntil host stop (budget + count) =
      n.stepUntil host stop budget := by
  induction h with
  | refl _ => exact ⟨0, fun _ _ => rfl⟩
  | step hcursor hstep _ ih =>
      obtain ⟨count, hcount⟩ := ih
      refine ⟨count + 1, fun host budget => ?_⟩
      rw [← Nat.add_assoc, stepUntil, if_neg hcursor, hstep host]
      exact hcount host budget

/-- The stepping loop ends at the given cursor. -/
theorem stepUntil_of_cursor (h : m.cursor = stop) (host : HostRunner) (budget : Nat) :
    m.stepUntil host stop budget = some (.done () m) := by
  unfold stepUntil
  rw [if_pos h]

/-- A larger budget does not change how the stepping loop ends. -/
theorem stepUntil_mono {host : HostRunner} {budget : Nat} {outcome : Outcome Unit}
    (h : m.stepUntil host stop budget = some outcome) (extra : Nat) :
    m.stepUntil host stop (budget + extra) = some outcome := by
  induction budget generalizing m with
  | zero =>
      rw [stepUntil] at h
      split at h
      · next hcursor => cases h; exact stepUntil_of_cursor hcursor host _
      · cases h
  | succ budget ih =>
      rw [stepUntil] at h
      rw [Nat.add_right_comm, stepUntil]
      split at h
      · next hcursor => rw [if_pos hcursor]; exact h
      · next hcursor =>
          rw [if_neg hcursor]
          split at h
          · exact ih h
          · exact h

/-- Steps that end in a halt. -/
def ReachesHalt (stop : Option Cell) (m : Machine) (reason : Halt) (n : Machine) : Prop :=
  ∃ last, Reaches stop m last ∧ last.cursor ≠ stop ∧
    ∀ host, last.step host = some (.halted reason n)

/-- The stepping loop ends with the halt that is reached. -/
theorem ReachesHalt.stepUntil_eq {reason : Halt} (h : ReachesHalt stop m reason n) :
    ∃ count, ∀ host budget, m.stepUntil host stop (budget + count) = some (.halted reason n) := by
  obtain ⟨last, hreaches, hcursor, hstep⟩ := h
  obtain ⟨count, hcount⟩ := hreaches.stepUntil_eq
  refine ⟨count + 1, fun host budget => ?_⟩
  rw [Nat.add_comm count, ← Nat.add_assoc, hcount, stepUntil, if_neg hcursor, hstep host]

/-- Steps through code that does what an outcome tells, up to control. After success the cursor and
the return stack are the given ones; a halt leaves the cursor wherever it happens and the return
stack with the saved cursors of the pending calls on top of the given one. -/
def Follows (stop : Option Cell) (m : Machine) (cursor : Option Cell)
    (returns : Stack .returns) : Outcome Unit → Prop
  | .done () n => ∃ current, Reaches stop m (n.withControl ⟨cursor, returns, current⟩)
  | .halted reason n =>
      ∃ k, returns.cells <:+ k.returns.cells ∧ ReachesHalt stop m reason (n.withControl k)

/-- Steps that lead to code that does what an outcome tells do so themselves. -/
theorem Follows.of_reaches {cursor : Option Cell} {returns : Stack .returns}
    {outcome : Outcome Unit} (hreaches : Reaches stop m n)
    (h : Follows stop n cursor returns outcome) : Follows stop m cursor returns outcome := by
  cases outcome with
  | done _ o =>
      obtain ⟨current, hcurrent⟩ := h
      exact ⟨current, hreaches.trans hcurrent⟩
  | halted reason o =>
      obtain ⟨k, hpending, last, hlast, hhalt⟩ := h
      exact ⟨k, hpending, last, hreaches.trans hlast, hhalt⟩

/-- A step whose outcome is a given one up to control does what that outcome tells. -/
theorem Follows.of_step {cursor : Option Cell} {returns : Stack .returns} {outcome : Outcome Unit}
    {done halted : Control} (hcursor : m.cursor ≠ stop)
    (hdone : done.cursor = cursor ∧ done.returns = returns) (hhalted : halted.returns = returns)
    (hstep : ∀ host, m.step host = some (outcome.withControls done halted)) :
    Follows stop m cursor returns outcome := by
  obtain ⟨rfl, rfl⟩ := hdone
  cases outcome with
  | done _ n => exact ⟨done.current, .single hcursor hstep⟩
  | halted reason n => exact ⟨halted, hhalted ▸ List.suffix_rfl, m, .refl m, hcursor, hstep⟩

/-- The operand is the cell at the cursor. -/
theorem operand_of_fetch {slot x : Cell} (hcursor : m.cursor = some slot)
    (hfetch : m.space.fetch slot = .ok x) : m.operand = .ok (slot, x) := by
  unfold operand
  rw [hcursor]
  dsimp only
  rw [hfetch]
  rfl

/-- A step at a cell that names a definition invokes that definition, with the cursor behind the
cell. -/
theorem step_eq_invoke (host : HostRunner) {slot token : Cell} {d : Definition}
    (hcursor : m.cursor = some slot) (hfetch : m.space.fetch slot = .ok token)
    (hresolve : m.resolve token = .ok d) :
    m.step host = { m with cursor := some (slot + 8) }.invoke host token d := by
  unfold step
  simp only [operand_of_fetch hcursor hfetch, hresolve, bind, Except.bind, pure, Except.pure]

/-- A step at a cell that cannot be read is refused. -/
theorem step_of_fetch_error (host : HostRunner) {slot : Cell} {fault : Fault}
    (hcursor : m.cursor = some slot) (hfetch : m.space.fetch slot = .error fault) :
    m.step host = some (.halted (.fault fault) m) := by
  have hoperand : m.operand = .error fault := by
    unfold operand
    rw [hcursor]
    dsimp only
    rw [hfetch]
    rfl
  unfold step
  simp only [hoperand, bind, Except.bind]

/-- A step at a cell that names no definition is refused. -/
theorem step_of_resolve_error (host : HostRunner) {slot token : Cell} {fault : Fault}
    (hcursor : m.cursor = some slot) (hfetch : m.space.fetch slot = .ok token)
    (hresolve : m.resolve token = .error fault) :
    m.step host = some (.halted (.fault fault) m) := by
  unfold step
  simp only [operand_of_fetch hcursor hfetch, hresolve, bind, Except.bind]

/-- A step at a cell that names a primitive carries out its effect, with the cursor behind the
cell. -/
theorem step_of_primitive (host : HostRunner) {slot token : Cell} {d : Definition} {p : Primitive}
    {effect : Effect} (hcursor : m.cursor = some slot) (hfetch : m.space.fetch slot = .ok token)
    (hresolve : m.resolve token = .ok d) (haction : d.action = .primitive p)
    (heffect : p.effect? = some effect) :
    m.step host = some (effect ({ m with cursor := some (slot + 8) }.enter token)) := by
  rw [step_eq_invoke host hcursor hfetch hresolve]
  unfold invoke carryOut
  rw [haction]
  dsimp only
  rw [heffect]

/-- A step at a cell that names an oblivious primitive does what the primitive does anywhere. -/
theorem step_of_oblivious (host : HostRunner) {slot token : Cell} {d : Definition} {p : Primitive}
    {effect : Effect} (hcursor : m.cursor = some slot) (hfetch : m.space.fetch slot = .ok token)
    (hresolve : m.resolve token = .ok d) (haction : d.action = .primitive p)
    (heffect : p.effect? = some effect) (hoblivious : effect.Oblivious) :
    m.step host = some ((effect m).withControls ⟨some (slot + 8), m.returns, some token.toNat⟩
      ⟨some (slot + 8), m.returns, some token.toNat⟩) := by
  have heq := hoblivious m ⟨some (slot + 8), m.returns, some token.toNat⟩
  rw [step_of_primitive host hcursor hfetch hresolve haction heffect]
  refine (congrArg some heq).trans ?_
  cases effect m with
  | done _ n => rfl
  | halted reason n => rfl

/-- A step at a literal pushes the cell behind it, and goes on behind that cell unless the stack is
full. -/
theorem step_of_literal (host : HostRunner) {slot token x : Cell} {d : Definition}
    (hcursor : m.cursor = some slot) (hfetch : m.space.fetch slot = .ok token)
    (hresolve : m.resolve token = .ok d) (haction : d.action = .primitive .literal)
    (hoperand : m.space.fetch (slot + 8) = .ok x) :
    m.step host = some ((Effect.change (·.push x) m).withControls
      ⟨some (slot + 8 + 8), m.returns, some token.toNat⟩
        ⟨some (slot + 8), m.returns, some token.toNat⟩) := by
  rw [step_of_primitive host hcursor hfetch hresolve haction rfl]
  simp only [Effect.change, literalWord, operand, enter, push, hoperand, bind, Except.bind, pure,
    Except.pure]
  cases m.data.push x with
  | ok data => rfl
  | error fault => rfl

/-- A step at a call enters the code of the definition if the return stack has room for the
cursor. -/
theorem step_of_call (host : HostRunner) {slot token : Cell} {d : Definition}
    {returns : Stack .returns} (hcursor : m.cursor = some slot)
    (hfetch : m.space.fetch slot = .ok token) (hresolve : m.resolve token = .ok d)
    (haction : d.action = .nested) (hpush : m.returns.push (slot + 8) = .ok returns) :
    m.step host =
      some (.done () (m.withControl ⟨some (UInt64.ofNat d.body), returns, some token.toNat⟩)) := by
  rw [step_eq_invoke host hcursor hfetch hresolve]
  unfold invoke carryOut
  rw [haction]
  simp only [call, enter, saveCursor, Option.getD_some, hpush, bind, Except.bind, pure, Except.pure]
  rfl

/-- A step at a call is refused if the return stack is full. -/
theorem step_of_full_call (host : HostRunner) {slot token : Cell} {d : Definition} {fault : Fault}
    (hcursor : m.cursor = some slot) (hfetch : m.space.fetch slot = .ok token)
    (hresolve : m.resolve token = .ok d) (haction : d.action = .nested)
    (hpush : m.returns.push (slot + 8) = .error fault) :
    m.step host =
      some (.halted (.fault fault)
        (m.withControl ⟨some (slot + 8), m.returns, some token.toNat⟩)) := by
  rw [step_eq_invoke host hcursor hfetch hresolve]
  unfold invoke carryOut
  rw [haction]
  simp only [call, enter, saveCursor, Option.getD_some, hpush, bind, Except.bind]
  rfl

/-- A step at the end of a definition goes back to the saved cursor. -/
theorem step_of_exit (host : HostRunner) {slot token saved : Cell} {d : Definition}
    {returns : Stack .returns} (hcursor : m.cursor = some slot)
    (hfetch : m.space.fetch slot = .ok token) (hresolve : m.resolve token = .ok d)
    (haction : d.action = .primitive .exit) (hpop : m.returns.pop = .ok (saved, returns)) :
    m.step host =
      some (.done () (m.withControl ⟨restoreCursor saved, returns, some token.toNat⟩)) := by
  rw [step_of_primitive host hcursor hfetch hresolve haction rfl]
  simp only [Effect.change, exitWord, enter, hpop, bind, Except.bind, pure, Except.pure]
  rfl

/-- Invoking a nested definition calls its code. -/
theorem invoke_of_nested (host : HostRunner) (token : Cell) {d : Definition}
    (haction : d.action = .nested) :
    m.invoke host token d = some ((m.enter token).attempt ((m.enter token).call d.body)) := by
  unfold invoke carryOut
  rw [haction]

/-- Executing a nested definition steps through its code until the cursor is back where it was. -/
theorem execute_of_nested (host : HostRunner) (budget : Nat) {token : Cell} {d : Definition}
    {returns : Stack .returns} (hresolve : m.resolve token = .ok d) (haction : d.action = .nested)
    (hpush : m.returns.push (saveCursor m.cursor) = .ok returns) :
    m.execute host budget token =
      (m.withControl ⟨some (UInt64.ofNat d.body), returns, some token.toNat⟩).stepUntil host
        m.cursor budget := by
  have hinvoke : m.invoke host token d =
      some (.done () (m.withControl ⟨some (UInt64.ofNat d.body), returns, some token.toNat⟩)) := by
    rw [invoke_of_nested host token haction]
    simp only [call, enter, hpush, bind, Except.bind, pure, Except.pure]
    rfl
  have hdepth : m.returns.depth < returns.depth := by
    simp only [Stack.depth, (Stack.push_eq_ok.mp hpush).1, List.length_cons]
    omega
  unfold execute
  rw [hresolve]
  dsimp only
  rw [hinvoke]
  exact if_pos hdepth

/-- A nested definition that has been executed with success had room for the cursor on the return
stack. -/
theorem pushed_of_execute {host : HostRunner} {budget : Nat} {token : Cell} {d : Definition}
    (hresolve : m.resolve token = .ok d) (haction : d.action = .nested)
    (h : m.execute host budget token = some (.done () n)) :
    ∃ returns, m.returns.push (saveCursor m.cursor) = .ok returns := by
  cases hpush : m.returns.push (saveCursor m.cursor) with
  | ok returns => exact ⟨returns, rfl⟩
  | error fault =>
      have hinvoke : m.invoke host token d = some (.halted (.fault fault) (m.enter token)) := by
        rw [invoke_of_nested host token haction]
        simp only [call, enter, hpush, bind, Except.bind]
        rfl
      unfold execute at h
      rw [hresolve] at h
      dsimp only at h
      rw [hinvoke] at h
      cases h

/-- Executing a primitive that is oblivious of control does what the primitive does anywhere. -/
theorem execute_of_oblivious (host : HostRunner) (budget : Nat) {token : Cell} {d : Definition}
    {p : Primitive} {effect : Effect} (hresolve : m.resolve token = .ok d)
    (haction : d.action = .primitive p) (heffect : p.effect? = some effect)
    (hoblivious : effect.Oblivious) :
    m.execute host budget token =
      some ((effect m).mapMachine (·.withControl ⟨m.cursor, m.returns, some token.toNat⟩)) := by
  have hinvoke : m.invoke host token d =
      some ((effect m).mapMachine (·.withControl ⟨m.cursor, m.returns, some token.toNat⟩)) := by
    unfold invoke carryOut
    rw [haction]
    dsimp only
    rw [heffect]
    exact congrArg some (hoblivious m ⟨m.cursor, m.returns, some token.toNat⟩)
  unfold execute
  rw [hresolve]
  dsimp only
  rw [hinvoke]
  cases effect m with
  | done _ n => exact if_neg (Nat.lt_irrefl _)
  | halted reason n => rfl

end Machine

/-- A position of data space is the same as a number and as a cell. -/
theorem toNat_ofNat_of_le {position bound : Nat} (h : position < bound)
    (hbound : bound ≤ Area.dataSpace.maximum) : (UInt64.ofNat position).toNat = position := by
  have hmaximum : Area.dataSpace.maximum = 0x40000000 := rfl
  rw [UInt64.toNat_ofNat', Nat.mod_eq_of_lt (by omega)]

/-- A cell that is an address of data space is no mark of an unset cursor. -/
theorem restoreCursor_of_lt {slot : Cell} {bound : Nat} (h : slot.toNat < bound)
    (hbound : bound ≤ Area.dataSpace.maximum) : restoreCursor slot = some slot := by
  have hmaximum : Area.dataSpace.maximum = 0x40000000 := rfl
  have hne : slot ≠ unsetMark := by
    rintro rfl
    have : unsetMark.toNat = 0xFFFFFFFFFFFFFFFF := rfl
    omega
  unfold restoreCursor
  rw [if_neg hne]

/-- A cell at an aligned position inside data space is read from there. -/
theorem DataSpace.fetch_ofNat {s : DataSpace} {position : Nat} (haligned : cellSize ∣ position)
    (hposition : position + cellSize ≤ s.size) (hsize : s.size ≤ Area.dataSpace.maximum) :
    s.fetch (UInt64.ofNat position) = .ok (s.cellAt position) := by
  have hlt : position < s.size := Nat.lt_of_lt_of_le (Nat.lt_add_of_pos_right (by decide)) hposition
  have htoNat : (UInt64.ofNat position).toNat = position := toNat_ofNat_of_le hlt hsize
  unfold fetch cellAddress requireAligned byteRange
  rw [isAligned_ofNat.mpr haligned, htoNat, if_pos hposition]
  rfl

/-- Bytes of a range inside data space are read from there. -/
theorem DataSpace.fetchBytes_ofNat {s : DataSpace} {position length : Nat}
    (hrange : position + length < s.size) (hsize : s.size ≤ Area.dataSpace.maximum) :
    s.fetchBytes (UInt64.ofNat position) (UInt64.ofNat length).toNat =
      .ok (s.bytesAt position length) := by
  have hposition : (UInt64.ofNat position).toNat = position := toNat_ofNat_of_le (by omega) hsize
  have hlength : (UInt64.ofNat length).toNat = length := toNat_ofNat_of_le (by omega) hsize
  unfold fetchBytes byteRange
  rw [hlength, hposition, if_pos (Nat.le_of_lt hrange)]
  rfl

/-- Given cells lie one after the other in the part of data space that has been handed out. -/
structure Machine.Carries (m : Machine) (address : Nat) (cells : List Cell) : Prop where
  aligned : cellSize ∣ address
  low : m.config.systemArea ≤ address
  high : address + cellSize * cells.length ≤ m.space.here
  cell {index : Nat} {x : Cell} : cells[index]? = some x →
    m.space.cellAt (address + cellSize * index) = x

namespace Machine.Carries

variable {m n : Machine} {address : Nat} {x : Cell} {left right cells : List Cell}

/-- The cells behind the first ones are carried behind them. -/
theorem drop (h : m.Carries address (left ++ right)) :
    m.Carries (address + cellSize * left.length) right where
  aligned := Nat.dvd_add h.aligned (Nat.dvd_mul_right _ _)
  low := Nat.le_trans h.low (Nat.le_add_right _ _)
  high := by
    have := h.high
    rw [List.length_append, Nat.mul_add] at this
    omega
  cell {index x} hx := by
    rw [Nat.add_assoc, ← Nat.mul_add]
    exact h.cell
      (by rw [List.getElem?_append_right (Nat.le_add_right _ _), Nat.add_sub_cancel_left]; exact hx)

/-- The cells behind the first one are carried behind it. -/
theorem tail (h : m.Carries address (x :: cells)) : m.Carries (address + cellSize) cells :=
  drop (show m.Carries address ([x] ++ cells) from h)

/-- Cells and the cells carried behind them are carried together. -/
theorem append (hleft : m.Carries address left)
    (hright : m.Carries (address + cellSize * left.length) right) :
    m.Carries address (left ++ right) where
  aligned := hleft.aligned
  low := hleft.low
  high := by
    have := hright.high
    rw [List.length_append, Nat.mul_add]
    omega
  cell {index x} hx := by
    by_cases hindex : index < left.length
    · rw [List.getElem?_append_left hindex] at hx
      exact hleft.cell hx
    · rw [List.getElem?_append_right (Nat.le_of_not_lt hindex)] at hx
      have hcell := hright.cell hx
      rwa [Nat.add_assoc, ← Nat.mul_add, Nat.add_sub_cancel' (Nat.le_of_not_lt hindex)] at hcell

/-- The first cell is read from the address. -/
theorem fetch (h : m.Carries address (x :: cells)) (hhere : m.space.here ≤ m.space.size)
    (hsize : m.space.size ≤ Area.dataSpace.maximum) :
    m.space.fetch (UInt64.ofNat address) = .ok x := by
  have hhigh := h.high
  rw [List.length_cons, Nat.mul_add] at hhigh
  rw [DataSpace.fetch_ofNat h.aligned (by omega) hsize,
    ← h.cell (show (x :: cells)[0]? = some x from rfl)]
  rfl

/-- Where the machine is in threaded code does not matter. -/
theorem withControl (h : m.Carries address cells) (k : Control) :
    (m.withControl k).Carries address cells :=
  ⟨h.aligned, h.low, h.high, h.cell⟩

/-- The cells stay where they are while the bytes in use are spared. -/
theorem continues (h : m.Carries address cells) (hcontinues : m.Continues n)
    (hspares : m.Spares n) : n.Carries address cells where
  aligned := h.aligned
  low := hcontinues.config ▸ h.low
  high := Nat.le_trans h.high hcontinues.space.here_le
  cell {index x} hx := by
    rw [← h.cell hx]
    have hindex := (List.getElem?_eq_some_iff.mp hx).1
    have hhigh := h.high
    have hlow := h.low
    have hcell : cellSize * (index + 1) ≤ cellSize * cells.length := Nat.mul_le_mul_left _ hindex
    rw [Nat.mul_add] at hcell
    refine Memory.getCell_congr fun other _ _ => hspares other (by omega) (by omega)

end Machine.Carries

end ThreadedForth
