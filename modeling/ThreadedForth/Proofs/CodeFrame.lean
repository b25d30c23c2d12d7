import ThreadedForth.Proofs.Continuation

/-!
# What primitives leave in data space

Threaded code lies between the system area and `here`. Of all primitives only the two that store at
an address from the stack can change a byte there: the others write at `here` or beyond it, or
inside the system area. Code that has been compiled therefore stays what it is while words run that
do not store.
-/

namespace ThreadedForth

/-- A primitive that writes wherever its operand says. -/
def Primitive.stores : Primitive → Bool
  | .store | .cStore => true
  | _ => false

namespace Machine

variable {α : Type} {m n o : Machine}

/-- The bytes between the system area and `here` are the same afterwards. -/
def Spares (m n : Machine) : Prop :=
  ∀ address, m.config.systemArea ≤ address → address < m.space.here →
    n.space.memory.get address = m.space.memory.get address

/-- A change that spares the bytes in use whenever it happens. -/
def Sparing (m : Machine) (change : Except Fault Machine) : Prop :=
  Meets m.Spares (fun _ => True) change

/-- A machine with the same data space has the same bytes. -/
theorem Spares.of_eq (h : n.space = m.space) : m.Spares n := fun address _ _ => by rw [h]

/-- Sparing composes as long as `here` does not move back. -/
theorem Spares.trans (hmn : m.Spares n) (hno : n.Spares o) (hcontinues : m.Continues n) :
    m.Spares o := by
  intro address hlow hhigh
  have hhere := hcontinues.space.here_le
  rw [hno address (hcontinues.config ▸ hlow) (by omega), hmn address hlow hhigh]

/-- Whatever a first step gives, the rest decides what is spared. -/
theorem Sparing.after {first : Except Fault α} {rest : α → Except Fault Machine}
    (h : ∀ value, m.Sparing (rest value)) : m.Sparing (first >>= rest) := by
  cases first with
  | ok value => exact h value
  | error fault => trivial

/-- Replacing the data stack spares every byte. -/
theorem sparing_data (change : Except Fault (Stack .data)) :
    m.Sparing (do return { m with data := ← change }) := .after fun _ => .of_eq rfl

/-- Writing from `here` on spares every byte in use. -/
theorem sparing_append (bytes : List UInt8) (data : Stack .data) :
    m.Sparing (do return { m with space := ← m.space.append bytes, data := data }) := by
  cases happend : m.space.append bytes with
  | error fault => trivial
  | ok space =>
      obtain ⟨-, rfl⟩ := DataSpace.append_eq_ok.mp happend
      exact fun address _ hhigh => Memory.get_write_of_lt _ bytes hhigh

/-- Handing out bytes as they are spares every byte. -/
theorem sparing_reserve (length : Nat) (data : Stack .data) :
    m.Sparing (do return { m with space := ← m.space.reserve length, data := data }) := by
  cases hreserve : m.space.reserve length with
  | error fault => trivial
  | ok space =>
      obtain ⟨-, rfl⟩ := DataSpace.reserve_eq_ok.mp hreserve
      exact fun _ _ _ => rfl

/-- Handing out a cell spares every byte in use. -/
theorem sparing_appendCells (cells : List Cell) (data : Stack .data) :
    m.Sparing (do return { m with space := ← m.space.appendCells cells, data := data }) := by
  unfold DataSpace.appendCells requireAligned
  split
  · exact sparing_append _ data
  · trivial

/-- Looking up a counted string spares every byte in use. -/
theorem findWord_sparing (m : Machine) : m.Sparing m.findWord := by
  refine .after fun popped => .after fun length => .after fun name => ?_
  dsimp only
  split
  · exact sparing_data _
  · exact sparing_data _

/-- Pushing the newest token spares every byte in use. -/
theorem latestWord_sparing (m : Machine) : m.Sparing m.latestWord := by
  refine .after fun _ => ?_
  split
  · exact sparing_data _
  · trivial

/-- Marking the newest definition spares every byte in use. -/
theorem immediateWord_sparing (m : Machine) : m.Sparing m.immediateWord := by
  unfold immediateWord
  split
  · exact .of_eq rfl
  · trivial

/-- Toggling the visibility of a definition spares every byte in use. -/
theorem hiddenWord_sparing (m : Machine) : m.Sparing m.hiddenWord := by
  refine .after fun popped => .after fun definition => ?_
  unfold setHidden
  cases m.resolve popped.1 with
  | ok _ => exact .of_eq rfl
  | error fault => trivial

/-- Replacing an index by the argument's place spares every byte in use. -/
theorem argumentWord_sparing (m : Machine) : m.Sparing m.argumentWord := by
  refine .after fun popped => ?_
  dsimp only
  split
  · exact sparing_data _
  · trivial

/-- Branching on the top cell spares every byte in use. -/
theorem zeroBranchWord_sparing (m : Machine) : m.Sparing m.zeroBranchWord := by
  refine .after fun popped => .after fun operand => ?_
  dsimp only
  split
  · exact .after fun _ => .of_eq rfl
  · exact .of_eq rfl

/-- Switching the compilation state writes inside the system area. -/
theorem setCompiling_sparing (m : Machine) (compiling : Bool) :
    m.Sparing (m.setCompiling compiling) := by
  intro address hlow _
  refine Memory.get_write_of_le _ _ ?_
  rw [Cell.length_toBytes]
  simp only [Config.systemArea, inputAddress, stateAddress, cellSize] at hlow ⊢
  omega

/-- Accepting a line writes inside the system area. -/
theorem acceptLine_spares (m : Machine) (line : List UInt8) : m.Spares (m.acceptLine line) := by
  intro address hlow _
  have hkept := List.length_take_le m.config.inputBuffer line
  simp only [Config.systemArea] at hlow
  change ((m.space.memory.write inputAddress (line.take m.config.inputBuffer)).write toInAddress
    _).get address = _
  rw [Memory.get_write_of_le, Memory.get_write_of_le]
  · omega
  · rw [Cell.length_toBytes]
    simp only [inputAddress, toInAddress, cellSize] at hlow ⊢
    omega

end Machine

namespace Effect

/-- A sparing change that happens or is refused is a sparing effect. -/
theorem change_spares {f : Machine → Except Fault Machine} {m : Machine} (h : m.Sparing (f m)) :
    m.Spares (change f m).machine := by
  unfold change Machine.attempt
  cases hf : f m with
  | ok n => rw [hf] at h; exact h
  | error fault => exact .of_eq rfl

/-- Writing keeps data space if what comes after it does. -/
theorem writeThen_space {m : Machine} (bytes : List UInt8) {next : Effect}
    (h : ∀ n, n.space = m.space → (next n).machine.space = m.space) :
    (m.writeThen bytes next).machine.space = m.space := by
  unfold Machine.writeThen
  split
  · exact h _ rfl
  · rfl

/-- Writing a byte keeps data space. -/
theorem emitWord_space (m : Machine) : m.emitWord.machine.space = m.space := by
  unfold Machine.emitWord
  split
  · rfl
  · exact writeThen_space _ fun _ hn => hn

/-- Writing a range of bytes keeps data space. -/
theorem typeWord_space (m : Machine) : m.typeWord.machine.space = m.space := by
  unfold Machine.typeWord
  dsimp only
  split
  · rfl
  · exact writeThen_space _ fun _ hn => hn

/-- Writing a newline keeps data space. -/
theorem newlineWord_space (m : Machine) : m.newlineWord.machine.space = m.space :=
  writeThen_space _ fun _ hn => hn

/-- Listing the dictionary keeps data space. -/
theorem wordsWord_space (m : Machine) : m.wordsWord.machine.space = m.space :=
  writeThen_space _ fun n hn => (newlineWord_space n).trans hn

/-- Leaving the session keeps data space. -/
theorem byeWord_space (m : Machine) : m.byeWord.machine.space = m.space := by
  unfold Machine.byeWord
  split
  · rfl
  · rfl

/-- Reading the next line spares every byte in use. -/
theorem refillWord_spares (m : Machine) : m.Spares m.refillWord.machine := by
  have hpush : ∀ (n o : Machine) (x : Cell), m.Spares n → m.Spares o →
      m.Spares (n.attempt (o.push x)).machine := by
    intro n o x hn ho
    unfold Machine.push Machine.attempt
    cases o.data.push x with
    | ok data => exact ho
    | error fault => exact hn
  unfold Machine.refillWord
  dsimp only
  split
  · exact .of_eq rfl
  · split
    · exact .of_eq rfl
    · split
      · exact hpush _ _ _ (.of_eq rfl) (.of_eq rfl)
      · exact hpush _ _ _ (.of_eq rfl) (Machine.acceptLine_spares { m with console := _ } _)

end Effect

open Effect in
/-- A primitive that does not store spares every byte between the system area and `here`. -/
theorem Primitive.effect_spares {p : Primitive} {effect : Effect} (h : p.effect? = some effect)
    (hp : p.stores = false) (m : Machine) : m.Spares (effect m).machine := by
  cases p <;> cases h <;> cases hp
  case toR | rFrom | rFetch | exit | ms => exact change_spares (.after fun _ => .of_eq rfl)
  case literal | branch => exact change_spares (.after fun _ => .after fun _ => .of_eq rfl)
  case fetch | cFetch | toBody =>
    exact change_spares (.after fun _ => .after fun _ => Machine.sparing_data _)
  case allot => exact change_spares (.after fun _ => Machine.sparing_reserve _ _)
  case align => exact change_spares (Machine.sparing_reserve _ m.data)
  case comma => exact change_spares (.after fun _ => Machine.sparing_appendCells _ _)
  case cComma => exact change_spares (.after fun _ => Machine.sparing_append _ _)
  case zeroBranch => exact change_spares m.zeroBranchWord_sparing
  case find => exact change_spares m.findWord_sparing
  case words => exact .of_eq (wordsWord_space m)
  case latest => exact change_spares m.latestWord_sparing
  case immediate => exact change_spares m.immediateWord_sparing
  case hidden => exact change_spares m.hiddenWord_sparing
  case leftBracket | rightBracket => exact change_spares (m.setCompiling_sparing _)
  case emit => exact .of_eq (emitWord_space m)
  case type => exact .of_eq (typeWord_space m)
  case cr => exact .of_eq (newlineWord_space m)
  case refill => exact refillWord_spares m
  case arg => exact change_spares m.argumentWord_sparing
  case bye => exact .of_eq (byeWord_space m)
  all_goals exact change_spares (Machine.sparing_data _)

end ThreadedForth
