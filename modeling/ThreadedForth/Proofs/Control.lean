import ThreadedForth.Proofs.Continuation
import ThreadedForth.Execution

/-!
# Words that are oblivious of control

The control state of a machine is its cursor, its return stack and its current word. All but a few
primitives neither read nor write any of it: they do the same whatever the control state is, and
leave it as it was. This is what lets the same word run from the host and from the middle of
threaded code with the same result.
-/

namespace ThreadedForth

/-- The part of a machine that tells where it is in threaded code. -/
structure Control where
  cursor : Option Cell
  returns : Stack .returns
  current : Option Nat

namespace Machine

/-- The control state of a machine. -/
def control (m : Machine) : Control := ⟨m.cursor, m.returns, m.current⟩

/-- A machine with another control state. -/
def withControl (m : Machine) (k : Control) : Machine :=
  { m with cursor := k.cursor, returns := k.returns, current := k.current }

end Machine

/-- The same outcome on a machine that has been changed after the fact. -/
def Outcome.mapMachine {α : Type} (f : Machine → Machine) : Outcome α → Outcome α
  | .done value m => .done value (f m)
  | .halted reason m => .halted reason (f m)

/-- A change that neither reads nor writes the control state. -/
def ObliviousChange (f : Machine → Except Fault Machine) : Prop :=
  ∀ m k, f (m.withControl k) = (f m).map (·.withControl k)

/-- An effect that neither reads nor writes the control state. -/
def Effect.Oblivious (effect : Effect) : Prop :=
  ∀ m k, effect (m.withControl k) = (effect m).mapMachine (·.withControl k)

/-- A primitive that reads or writes the control state, or that invokes a word which may. -/
def Primitive.usesControl : Primitive → Bool
  | .toR | .rFrom | .rFetch | .exit | .literal | .branch | .zeroBranch | .execute => true
  | _ => false

section Changes

variable {α : Type}

/-- A change of the result passes through sequencing. -/
theorem bind_eq_map {x : Except Fault α} {f g : α → Except Fault Machine}
    {change : Machine → Machine} (h : ∀ value, f value = (g value).map change) :
    (x >>= f) = (x >>= g).map change := by
  cases x with
  | ok value => exact h value
  | error fault => rfl

/-- Replacing operands by one result is oblivious of control. -/
theorem replace_oblivious (m : Machine) (k : Control) (data : Stack .data) (x : Cell) :
    (do return { m.withControl k with data := ← data.push x } : Except Fault Machine) =
      (do return { m with data := ← data.push x } : Except Fault Machine).map (·.withControl k) :=
  bind_eq_map fun _ => rfl

/-- Replacing operands by several results is oblivious of control. -/
theorem replaceAll_oblivious (m : Machine) (k : Control) (data : Stack .data) (xs : List Cell) :
    (do return { m.withControl k with data := ← data.pushAll xs } : Except Fault Machine) =
      (do return { m with data := ← data.pushAll xs } : Except Fault Machine).map
        (·.withControl k) :=
  bind_eq_map fun _ => rfl

/-- Writing a cell neither reads nor writes the control state. -/
theorem storeWord_oblivious : ObliviousChange Machine.storeWord := fun _ _ =>
  bind_eq_map fun _ => bind_eq_map fun _ => rfl

/-- Writing a byte neither reads nor writes the control state. -/
theorem storeByteWord_oblivious : ObliviousChange Machine.storeByteWord := fun _ _ =>
  bind_eq_map fun _ => bind_eq_map fun _ => rfl

/-- Reading a cell neither reads nor writes the control state. -/
theorem fetchWord_oblivious : ObliviousChange Machine.fetchWord := fun _ _ =>
  bind_eq_map fun _ => bind_eq_map fun _ => bind_eq_map fun _ => rfl

/-- Reading a byte neither reads nor writes the control state. -/
theorem fetchByteWord_oblivious : ObliviousChange Machine.fetchByteWord := fun _ _ =>
  bind_eq_map fun _ => bind_eq_map fun _ => bind_eq_map fun _ => rfl

/-- Handing out bytes neither reads nor writes the control state. -/
theorem allotWord_oblivious : ObliviousChange Machine.allotWord := fun _ _ =>
  bind_eq_map fun _ => bind_eq_map fun _ => rfl

/-- Handing out bytes up to a boundary neither reads nor writes the control state. -/
theorem alignWord_oblivious : ObliviousChange Machine.alignWord :=
  fun _ _ => bind_eq_map fun _ => rfl

/-- Handing out a cell neither reads nor writes the control state. -/
theorem commaWord_oblivious : ObliviousChange Machine.commaWord := fun _ _ =>
  bind_eq_map fun _ => bind_eq_map fun _ => rfl

/-- Handing out a byte neither reads nor writes the control state. -/
theorem byteCommaWord_oblivious : ObliviousChange Machine.byteCommaWord := fun _ _ =>
  bind_eq_map fun _ => bind_eq_map fun _ => rfl

/-- Looking up a counted string neither reads nor writes the control state. -/
theorem findWord_oblivious : ObliviousChange Machine.findWord := by
  intro m k
  refine bind_eq_map fun popped => bind_eq_map fun length => bind_eq_map fun name => ?_
  dsimp only
  rw [show (m.withControl k).dictionary.find? name = m.dictionary.find? name from rfl]
  cases m.dictionary.find? name with
  | none => exact replace_oblivious m k _ _
  | some token => exact replaceAll_oblivious m k _ _

/-- Pushing the newest token neither reads nor writes the control state. -/
theorem latestWord_oblivious : ObliviousChange Machine.latestWord := by
  intro m k
  refine bind_eq_map fun _ => ?_
  rw [show (m.withControl k).dictionary.latest? = m.dictionary.latest? from rfl]
  cases m.dictionary.latest? with
  | none => rfl
  | some token => exact bind_eq_map fun _ => rfl

/-- Marking the newest definition neither reads nor writes the control state. -/
theorem immediateWord_oblivious : ObliviousChange Machine.immediateWord := by
  intro m k
  unfold Machine.immediateWord
  rw [show (m.withControl k).dictionary.latest? = m.dictionary.latest? from rfl]
  cases m.dictionary.latest? with
  | none => rfl
  | some token => rfl

/-- Hiding a definition or showing it neither reads nor writes the control state. -/
theorem setHidden_oblivious (token : Cell) (hidden : Bool) :
    ObliviousChange fun m => m.setHidden token hidden := fun _ _ => bind_eq_map fun _ => rfl

/-- Toggling the visibility of a definition neither reads nor writes the control state. -/
theorem hiddenWord_oblivious : ObliviousChange Machine.hiddenWord := by
  intro m k
  refine bind_eq_map fun popped => bind_eq_map fun definition => ?_
  have htoggled := setHidden_oblivious popped.1 (!definition.hidden) m k
  dsimp only at htoggled ⊢
  rw [htoggled]
  cases m.setHidden popped.1 (!definition.hidden) with
  | ok toggled => rfl
  | error fault => rfl

/-- Replacing a token by the body's address neither reads nor writes the control state. -/
theorem bodyWord_oblivious : ObliviousChange Machine.bodyWord := fun _ _ =>
  bind_eq_map fun _ => bind_eq_map fun _ => bind_eq_map fun _ => rfl

/-- Replacing an index by the argument's place neither reads nor writes the control state. -/
theorem argumentWord_oblivious : ObliviousChange Machine.argumentWord := by
  intro m k
  refine bind_eq_map fun popped => ?_
  dsimp only
  rw [show (m.withControl k).spans[popped.1.toNat]? = m.spans[popped.1.toNat]? from rfl]
  cases m.spans[popped.1.toNat]? with
  | none => rfl
  | some span => exact replaceAll_oblivious m k _ _

/-- Waiting neither reads nor writes the control state. -/
theorem waitWord_oblivious : ObliviousChange Machine.waitWord := fun _ _ => bind_eq_map fun _ => rfl

end Changes

namespace Effect

/-- An oblivious change that happens or is refused is an oblivious effect. -/
theorem change_oblivious {f : Machine → Except Fault Machine} (h : ObliviousChange f) :
    (change f).Oblivious := by
  intro m k
  unfold change Machine.attempt
  rw [h m k]
  cases f m with
  | ok n => rfl
  | error fault => rfl

/-- A change of the data stack alone is oblivious of control. -/
theorem onData_oblivious (f : Stack .data → Except Fault (Stack .data)) : (onData f).Oblivious :=
  change_oblivious fun _ _ => bind_eq_map fun _ => rfl

/-- Writing is oblivious of control if what comes after it is. -/
theorem writeThen_oblivious (bytes : List UInt8) {next : Effect} (h : next.Oblivious) (m : Machine)
    (k : Control) :
    (m.withControl k).writeThen bytes next =
      (m.writeThen bytes next).mapMachine (·.withControl k) := by
  unfold Machine.writeThen
  rw [show (m.withControl k).console.output.write bytes = m.console.output.write bytes from rfl]
  obtain ⟨written, output⟩ := m.console.output.write bytes
  cases written with
  | ok => exact h { m with console := { m.console with output := output } } k
  | error message => rfl

/-- Writing a byte neither reads nor writes the control state. -/
theorem emitWord_oblivious : Effect.Oblivious Machine.emitWord := by
  intro m k
  unfold Machine.emitWord
  rw [show (m.withControl k).data.pop = m.data.pop from rfl]
  cases m.data.pop with
  | ok popped => exact writeThen_oblivious _ (fun _ _ => rfl) m k
  | error fault => rfl

/-- Writing a range of bytes neither reads nor writes the control state. -/
theorem typeWord_oblivious : Effect.Oblivious Machine.typeWord := by
  intro m k
  unfold Machine.typeWord
  rw [show (m.withControl k).data.popPair = m.data.popPair from rfl,
    show (m.withControl k).space = m.space from rfl]
  dsimp only
  split
  · rfl
  · exact writeThen_oblivious _ (fun _ _ => rfl) m k

/-- Writing a newline neither reads nor writes the control state. -/
theorem newlineWord_oblivious : Effect.Oblivious Machine.newlineWord :=
  writeThen_oblivious _ fun _ _ => rfl

/-- Listing the dictionary neither reads nor writes the control state. -/
theorem wordsWord_oblivious : Effect.Oblivious Machine.wordsWord := fun m k =>
  writeThen_oblivious _ newlineWord_oblivious m k

/-- Leaving the session neither reads nor writes the control state. -/
theorem byeWord_oblivious : Effect.Oblivious Machine.byeWord := by
  intro m k
  unfold Machine.byeWord
  rw [show (m.withControl k).flush = m.flush from rfl]
  cases m.flush with
  | ok => rfl
  | error fault => rfl

/-- Reading the next line neither reads nor writes the control state. -/
theorem refillWord_oblivious : Effect.Oblivious Machine.refillWord := by
  intro m k
  have hpush : ∀ (n o : Machine) (x : Cell), (n.withControl k).attempt ((o.withControl k).push x) =
      (n.attempt (o.push x)).mapMachine (·.withControl k) := by
    intro n o x
    have hoblivious : (o.withControl k).push x = (o.push x).map (·.withControl k) :=
      replace_oblivious o k o.data x
    rw [hoblivious]
    cases o.push x with
    | ok p => rfl
    | error fault => rfl
  unfold Machine.refillWord
  rw [show (m.withControl k).data.requireRoom 1 = m.data.requireRoom 1 from rfl,
    show (m.withControl k).flush = m.flush from rfl,
    show (m.withControl k).console.input.readLine = m.console.input.readLine from rfl]
  cases (m.data.requireRoom 1 >>= fun _ => m.flush : Except Fault Unit) with
  | error fault => rfl
  | ok =>
      obtain ⟨line, input⟩ := m.console.input.readLine
      cases line with
      | error message => rfl
      | ok line =>
          let n : Machine := { m with console := { m.console with input := input } }
          dsimp only
          split
          · exact hpush n n _
          · exact hpush n (n.acceptLine (Input.trimLine line)) _

end Effect

open Effect in
/-- A primitive that does not use the control state is oblivious of it. -/
theorem Primitive.effect_oblivious {p : Primitive} {effect : Effect} (h : p.effect? = some effect)
    (hp : p.usesControl = false) : effect.Oblivious := by
  cases p <;> cases h <;> cases hp
  case store => exact change_oblivious storeWord_oblivious
  case fetch => exact change_oblivious fetchWord_oblivious
  case cStore => exact change_oblivious storeByteWord_oblivious
  case cFetch => exact change_oblivious fetchByteWord_oblivious
  case allot => exact change_oblivious allotWord_oblivious
  case align => exact change_oblivious alignWord_oblivious
  case comma => exact change_oblivious commaWord_oblivious
  case cComma => exact change_oblivious byteCommaWord_oblivious
  case here | unused | state | toIn | argCount =>
    exact change_oblivious fun m k => replace_oblivious m k _ _
  case find => exact change_oblivious findWord_oblivious
  case words => exact wordsWord_oblivious
  case latest => exact change_oblivious latestWord_oblivious
  case immediate => exact change_oblivious immediateWord_oblivious
  case hidden => exact change_oblivious hiddenWord_oblivious
  case toBody => exact change_oblivious bodyWord_oblivious
  case leftBracket | rightBracket => exact change_oblivious fun _ _ => rfl
  case emit => exact emitWord_oblivious
  case type => exact typeWord_oblivious
  case cr => exact newlineWord_oblivious
  case source | timeAndDate | utcTimeAndDate =>
    exact change_oblivious fun m k => replaceAll_oblivious m k _ _
  case refill => exact refillWord_oblivious
  case arg => exact change_oblivious argumentWord_oblivious
  case bye => exact byeWord_oblivious
  case ms => exact change_oblivious waitWord_oblivious
  all_goals exact onData_oblivious _

end ThreadedForth
