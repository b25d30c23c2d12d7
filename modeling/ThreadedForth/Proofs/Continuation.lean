import ThreadedForth.Proofs.DataSpace

/-!
# What every primitive leaves as it was

A machine continues another one if the capacities, the arguments and the definitions are the same
apart from the flags of definitions, if `here` has only moved forward, short of the end, and if the
current line still fits its buffer. Every primitive leaves a machine that continues the one it
started from, whether it succeeds or halts.
-/

namespace ThreadedForth

/-- A definition without its flags: what stays the same for good once it has been added. -/
def Definition.core (d : Definition) : String × Action × Nat := (d.name, d.action, d.body)

/-- Two dictionaries with the same definitions apart from flags. -/
structure Dictionary.Resembles (d e : Dictionary) : Prop where
  capacity : e.capacity = d.capacity
  entries : e.entries.map Definition.core = d.entries.map Definition.core

namespace Dictionary

variable {d e f : Dictionary}

/-- A dictionary resembles itself. -/
theorem Resembles.refl (d : Dictionary) : d.Resembles d := ⟨rfl, rfl⟩

/-- Resemblance composes. -/
theorem Resembles.trans (hde : d.Resembles e) (hef : e.Resembles f) : d.Resembles f :=
  ⟨hef.capacity.trans hde.capacity, hef.entries.trans hde.entries⟩

/-- Resembling dictionaries have equally many definitions. -/
theorem Resembles.size (h : d.Resembles e) : e.size = d.size := by
  simpa only [Array.size_map, Dictionary.size] using congrArg Array.size h.entries

/-- A definition of one of two resembling dictionaries is, apart from flags, in the other one
too. -/
theorem Resembles.get? (h : d.Resembles e) {token : Nat} {definition : Definition}
    (hget : d.get? token = some definition) :
    ∃ other, e.get? token = some other ∧ other.name = definition.name ∧
      other.action = definition.action ∧ other.body = definition.body := by
  have hentries := congrArg (fun cores => cores[token]?) h.entries
  simp only [Array.getElem?_map] at hentries
  rw [show d.entries[token]? = some definition from hget, Option.map_some,
    Option.map_eq_some_iff] at hentries
  obtain ⟨other, hother, hcore⟩ := hentries
  simp only [Definition.core, Prod.mk.injEq] at hcore
  exact ⟨other, hother, hcore⟩

/-- Resemblance is mutual. -/
theorem Resembles.symm (h : d.Resembles e) : e.Resembles d := ⟨h.capacity.symm, h.entries.symm⟩

/-- Changing the flags of a definition gives a resembling dictionary. -/
theorem modify_resembles (d : Dictionary) (token : Nat) {change : Definition → Definition}
    (h : ∀ definition, (change definition).core = definition.core) :
    d.Resembles (d.modify token change) := by
  refine ⟨rfl, ?_⟩
  apply Array.ext_getElem?
  intro index
  simp only [modify, Array.getElem?_map, Array.getElem?_modify]
  split
  · rw [Option.map_map]
    congr 1
    funext definition
    exact h definition
  · rfl

end Dictionary

/-- How a machine goes on: what a primitive may not change, and the directions of what it may. -/
structure Machine.Continues (m n : Machine) : Prop where
  config : n.config = m.config
  arguments : n.arguments = m.arguments
  spans : n.spans = m.spans
  data : n.data.capacity = m.data.capacity
  returns : n.returns.capacity = m.returns.capacity
  space : m.space.Extends n.space
  dictionary : m.dictionary.Resembles n.dictionary
  line : m.lineLength ≤ m.config.inputBuffer → n.lineLength ≤ n.config.inputBuffer

namespace Machine

variable {α : Type} {m n o : Machine}

/-- A machine continues itself. -/
theorem Continues.refl (m : Machine) : m.Continues m :=
  ⟨rfl, rfl, rfl, rfl, rfl, .refl _, .refl _, id⟩

/-- Cursor, current word, console and clock may change freely. -/
theorem Continues.free (m : Machine) (cursor : Option Cell) (current : Option Nat)
    (console : Console) (clock : Clock) :
    m.Continues { m with
      cursor := cursor, current := current, console := console, clock := clock } :=
  { Continues.refl m with }

/-- Continuing composes. -/
theorem Continues.trans (hmn : m.Continues n) (hno : n.Continues o) : m.Continues o where
  config := hno.config.trans hmn.config
  arguments := hno.arguments.trans hmn.arguments
  spans := hno.spans.trans hmn.spans
  data := hno.data.trans hmn.data
  returns := hno.returns.trans hmn.returns
  space := ⟨hno.space.size.trans hmn.space.size, Nat.le_trans hmn.space.here_le hno.space.here_le,
    fun h => hno.space.here_lt (hmn.space.here_lt h)⟩
  dictionary := hmn.dictionary.trans hno.dictionary
  line := fun h => hno.line (hmn.line h)

/-- A fault that may be raised on this machine: while a byte of data space remains, none says
otherwise, and none says that there is no cursor unless there is none. -/
def Tolerates (m : Machine) (fault : Fault) : Prop :=
  m.space.here < m.space.size → fault.isOrdinary = true ∨ m.cursor = none ∧ fault = .noInstructions

/-- An ordinary fault may be raised on every machine. -/
theorem Tolerates.ordinary {fault : Fault} (h : fault.isOrdinary = true) : m.Tolerates fault :=
  fun _ => .inl h

/-- While a byte of data space remains, no fault that may be raised says otherwise. -/
theorem Tolerates.isInvalidHere {fault : Fault} (h : m.Tolerates fault)
    (hhere : m.space.here < m.space.size) : fault.isInvalidHere = false := by
  rcases h hhere with hordinary | ⟨-, rfl⟩
  · exact Fault.isInvalidHere_of_isOrdinary hordinary
  · rfl

/-- The contract of a change: it continues the machine, and its faults are tolerated there. -/
def Steady (m : Machine) (change : Except Fault Machine) : Prop :=
  Meets m.Continues m.Tolerates change

/-- A word's work on a stack may be part of a change of the machine. -/
theorem tolerates_of_stack {accept : α → Prop} {work : Except Fault α}
    (h : Meets accept (fun fault => fault.blamesStack = true) work) :
    Meets accept m.Tolerates work :=
  h.weaken (fun _ haccept => haccept) fun _ hfault =>
    .ordinary (Fault.isOrdinary_of_blamesStack hfault)

/-- A reading of data space may be part of a change of the machine. -/
theorem tolerates_of_reads {reading : Except Fault α} (h : DataSpace.Reads reading) :
    Meets (fun _ => True) m.Tolerates reading :=
  h.weaken (fun _ _ => trivial) fun _ hfault => .ordinary hfault

/-- A change of data space may be part of a change of the machine. -/
theorem tolerates_of_grows {change : Except Fault DataSpace} (h : m.space.Grows change) :
    Meets m.space.Extends m.Tolerates change :=
  h.weaken (fun _ hspace => hspace) fun _ hfault hhere => .inl (hfault hhere)

/-- A change of the data stack that keeps its capacity continues the machine. -/
theorem steady_data {change : Except Fault (Stack .data)} (h : m.data.Conserves change) :
    m.Steady (do return { m with data := ← change }) :=
  (tolerates_of_stack h).bind fun _ hdata => { Continues.refl m with data := hdata }

/-- Taking a cell off the data stack first continues the machine if what follows does. -/
theorem steady_pop {next : Cell × Stack .data → Except Fault Machine}
    (h : ∀ x data, data.capacity = m.data.capacity → m.Steady (next (x, data))) :
    m.Steady (m.data.pop >>= next) :=
  (tolerates_of_stack m.data.pop_conserves).bind fun popped hpopped => h popped.1 popped.2 hpopped

/-- Taking two cells off the data stack first continues the machine if what follows does. -/
theorem steady_popPair {next : Cell × Cell × Stack .data → Except Fault Machine}
    (h : ∀ x y data, data.capacity = m.data.capacity → m.Steady (next (x, y, data))) :
    m.Steady (m.data.popPair >>= next) :=
  (tolerates_of_stack m.data.popPair_conserves).bind fun popped hpopped =>
    h popped.1 popped.2.1 popped.2.2 hpopped

/-- Putting the result on what is left of the data stack continues the machine. -/
theorem steady_replace {data : Stack .data} (x : Cell) (h : data.capacity = m.data.capacity) :
    m.Steady (do return { m with data := ← data.push x }) :=
  steady_data (Stack.push_conserves x h)

/-- Putting several results on what is left of the data stack continues the machine. -/
theorem steady_replaceAll {data : Stack .data} (xs : List Cell)
    (h : data.capacity = m.data.capacity) :
    m.Steady (do return { m with data := ← data.pushAll xs }) :=
  steady_data (Stack.pushAll_conserves xs h)

/-- Putting a cell on the data stack continues the machine. -/
theorem push_steady (m : Machine) (x : Cell) : m.Steady (m.push x) := steady_replace x rfl

/-- Taking the top cell off continues the machine. -/
theorem continues_of_pop {popped : Cell × Machine} (h : m.pop = .ok popped) :
    m.Continues popped.2 := by
  obtain ⟨⟨y, data⟩, hpop, heq⟩ := bind_eq_ok.mp h
  cases heq
  exact { Continues.refl m with data := Stack.capacity_pop hpop }

/-- A machine without its top cell, and with the room of one more, continues the machine. -/
theorem continues_of_cells {x : Cell} {rest : List Cell} (h : m.data.cells = x :: rest) :
    m.Continues { m with data := { m.data with cells := rest, room := m.data.room + 1 } } := by
  refine { Continues.refl m with data := ?_ }
  simp only [Stack.capacity, Stack.depth, h, List.length_cons]
  omega

/-- A word on both stacks that keeps both capacities continues the machine. -/
theorem steady_stacks {change : Except Fault (Stack .data × Stack .returns)}
    (h : Meets (fun (data, returns) => data.capacity = m.data.capacity ∧
      returns.capacity = m.returns.capacity) (fun fault => fault.blamesStack = true) change) :
    m.Steady (do
      let (data, returns) ← change
      return { m with data := data, returns := returns }) :=
  (tolerates_of_stack h).bind fun _ hstacks =>
    { Continues.refl m with data := hstacks.1, returns := hstacks.2 }

/-- Moving a cell to the return stack keeps both capacities. -/
theorem toReturn_conserves (data : Stack .data) (returns : Stack .returns) :
    Meets (fun (after : Stack .data × Stack .returns) =>
      after.1.capacity = data.capacity ∧ after.2.capacity = returns.capacity)
      (fun fault => fault.blamesStack = true) (Stack.toReturn data returns) :=
  data.pop_conserves.bind fun _ hdata =>
    (Stack.push_conserves _ rfl).bind fun _ hreturns => ⟨hdata, hreturns⟩

/-- Moving a cell back from the return stack keeps both capacities. -/
theorem fromReturn_conserves (data : Stack .data) (returns : Stack .returns) :
    Meets (fun (after : Stack .data × Stack .returns) =>
      after.1.capacity = data.capacity ∧ after.2.capacity = returns.capacity)
      (fun fault => fault.blamesStack = true) (Stack.fromReturn data returns) :=
  returns.pop_conserves.bind fun _ hreturns =>
    (Stack.push_conserves _ rfl).bind fun _ hdata => ⟨hdata, hreturns⟩

/-- Copying a cell from the return stack keeps both capacities. -/
theorem copyReturn_conserves (data : Stack .data) (returns : Stack .returns) :
    Meets (fun (after : Stack .data × Stack .returns) =>
      after.1.capacity = data.capacity ∧ after.2.capacity = returns.capacity)
      (fun fault => fault.blamesStack = true) (Stack.copyReturn data returns) :=
  returns.pop_conserves.bind fun _ _ =>
    (Stack.push_conserves _ rfl).bind fun _ hdata => ⟨hdata, rfl⟩

/-- A change of data space that grows it continues the machine, whatever operands were taken. -/
theorem steady_space {data : Stack .data} {change : Except Fault DataSpace}
    (hdata : data.capacity = m.data.capacity) (hspace : m.space.Grows change) :
    m.Steady (do return { m with space := ← change, data := data }) :=
  (tolerates_of_grows hspace).bind fun _ h => { Continues.refl m with data := hdata, space := h }

/-- Putting what was read from data space on what is left of the data stack continues the
machine. -/
theorem steady_read {data : Stack .data} {reading : Except Fault α} (f : α → Cell)
    (hdata : data.capacity = m.data.capacity) (hreading : DataSpace.Reads reading) :
    m.Steady (do return { m with data := ← data.push (f (← reading)) }) :=
  (tolerates_of_reads hreading).bind fun x _ => steady_replace (f x) hdata

/-- Writing a cell continues the machine. -/
theorem storeWord_steady (m : Machine) : m.Steady m.storeWord :=
  steady_popPair fun x address _ hdata => steady_space hdata (m.space.store_grows address x)

/-- Writing a byte continues the machine. -/
theorem storeByteWord_steady (m : Machine) : m.Steady m.storeByteWord :=
  steady_popPair fun x address _ hdata =>
    steady_space hdata (m.space.storeByte_grows address x.toUInt8)

/-- Reading a cell continues the machine. -/
theorem fetchWord_steady (m : Machine) : m.Steady m.fetchWord :=
  steady_pop fun address _ hdata => steady_read id hdata (m.space.fetch_reads address)

/-- Reading a byte continues the machine. -/
theorem fetchByteWord_steady (m : Machine) : m.Steady m.fetchByteWord :=
  steady_pop fun address _ hdata =>
    steady_read UInt8.toUInt64 hdata (m.space.fetchByte_reads address)

/-- Handing out bytes continues the machine. -/
theorem allotWord_steady (m : Machine) : m.Steady m.allotWord :=
  steady_pop fun length _ hdata => steady_space hdata (m.space.reserve_grows length.toNat)

/-- Handing out bytes up to a boundary continues the machine. -/
theorem alignWord_steady (m : Machine) : m.Steady m.alignWord :=
  steady_space rfl m.space.align_grows

/-- Handing out a cell continues the machine. -/
theorem commaWord_steady (m : Machine) : m.Steady m.commaWord :=
  steady_pop fun x _ hdata => steady_space hdata (m.space.appendCells_grows [x])

/-- Handing out a byte continues the machine. -/
theorem byteCommaWord_steady (m : Machine) : m.Steady m.byteCommaWord :=
  steady_pop fun x _ hdata => steady_space hdata (m.space.append_grows [x.toUInt8])

/-- The operand is read from data space, if there is a cursor. -/
theorem operand_tolerates (m : Machine) : Meets (fun _ => True) m.Tolerates m.operand := by
  unfold operand
  split
  · next hcursor => exact fun _ => .inr ⟨hcursor, rfl⟩
  · exact (tolerates_of_reads (m.space.fetch_reads _)).bind fun _ _ => trivial

/-- A branch target is an address or out of bounds. -/
theorem branchTarget_tolerates (m : Machine) (slot offset : Cell) :
    Meets (fun _ => True) m.Tolerates (branchTarget slot offset) := by
  unfold branchTarget
  dsimp only
  split
  · exact .ordinary rfl
  · trivial

/-- Calling a definition continues the machine. -/
theorem call_steady (m : Machine) (body : Nat) : m.Steady (m.call body) :=
  (tolerates_of_stack (Stack.push_conserves _ rfl)).bind fun _ hreturns =>
    { Continues.refl m with returns := hreturns }

/-- Returning from a call continues the machine. -/
theorem exitWord_steady (m : Machine) : m.Steady m.exitWord :=
  (tolerates_of_stack m.returns.pop_conserves).bind fun _ hreturns =>
    { Continues.refl m with returns := hreturns }

/-- Pushing the operand continues the machine. -/
theorem literalWord_steady (m : Machine) : m.Steady m.literalWord :=
  m.operand_tolerates.bind fun _ _ =>
    (tolerates_of_stack (Stack.push_conserves _ rfl)).bind fun _ hdata =>
      { Continues.refl m with data := hdata }

/-- Branching continues the machine. -/
theorem branchWord_steady (m : Machine) : m.Steady m.branchWord :=
  m.operand_tolerates.bind fun _ _ => (m.branchTarget_tolerates _ _).bind fun _ _ => .free m _ _ _ _

/-- Branching on the top cell continues the machine. -/
theorem zeroBranchWord_steady (m : Machine) : m.Steady m.zeroBranchWord := by
  refine steady_pop fun x data hdata => m.operand_tolerates.bind fun ⟨slot, offset⟩ _ => ?_
  dsimp only
  split
  · exact (m.branchTarget_tolerates slot offset).bind fun _ _ =>
      { Continues.refl m with data := hdata }
  · exact { Continues.refl m with data := hdata }

/-- A token names the definition that the dictionary has at its place. -/
theorem resolve_eq_ok {token : Cell} {d : Definition} :
    m.resolve token = .ok d ↔ m.dictionary.get? token.toNat = some d := by
  unfold resolve
  cases m.dictionary.get? token.toNat with
  | some e => exact ⟨fun h => by cases h; rfl, fun h => by cases h; rfl⟩
  | none => exact ⟨fun h => (nomatch h), fun h => (nomatch h)⟩

/-- A token that names no definition is at fault itself. -/
theorem resolve_tolerates (m : Machine) (token : Cell) :
    Meets (fun _ => True) m.Tolerates (m.resolve token) := by
  unfold resolve
  split
  · trivial
  · exact .ordinary rfl

/-- Looking up a counted string continues the machine. -/
theorem findWord_steady (m : Machine) : m.Steady m.findWord := by
  refine steady_pop fun address data hdata =>
    (tolerates_of_reads (m.space.fetchByte_reads address)).bind
    fun length _ => (tolerates_of_reads (m.space.fetchBytes_reads _ _)).bind fun name _ => ?_
  dsimp only
  split
  · exact steady_replace 0 hdata
  · exact steady_replaceAll _ hdata

/-- A stack without room is at fault itself. -/
theorem requireRoom_tolerates (m : Machine) (needed : Nat) :
    Meets (fun _ => True) m.Tolerates (m.data.requireRoom needed) := by
  unfold Stack.requireRoom
  split
  · exact .ordinary rfl
  · trivial

/-- Pushing the newest token continues the machine. -/
theorem latestWord_steady (m : Machine) : m.Steady m.latestWord := by
  refine (m.requireRoom_tolerates 1).bind fun _ _ => ?_
  split
  · exact m.push_steady _
  · exact .ordinary rfl

/-- Marking the newest definition continues the machine. -/
theorem immediateWord_steady (m : Machine) : m.Steady m.immediateWord := by
  unfold immediateWord
  split
  · exact { Continues.refl m with dictionary := m.dictionary.modify_resembles _ fun _ => rfl }
  · exact .ordinary rfl

/-- Hiding a definition or showing it continues the machine. -/
theorem setHidden_steady (m : Machine) (token : Cell) (hidden : Bool) :
    m.Steady (m.setHidden token hidden) :=
  (m.resolve_tolerates token).bind fun _ _ =>
    { Continues.refl m with dictionary := m.dictionary.modify_resembles _ fun _ => rfl }

/-- Toggling the visibility of a definition continues the machine. -/
theorem hiddenWord_steady (m : Machine) : m.Steady m.hiddenWord :=
  steady_pop fun token _ hdata => (m.resolve_tolerates token).bind fun definition _ =>
    (m.setHidden_steady token !definition.hidden).bind fun _ htoggled =>
      { htoggled with data := hdata }

/-- Replacing a token by the body's address continues the machine. -/
theorem bodyWord_steady (m : Machine) : m.Steady m.bodyWord :=
  steady_pop fun token _ hdata => (m.resolve_tolerates token).bind fun _ _ => steady_replace _ hdata

/-- Switching the compilation state continues the machine. -/
theorem setCompiling_steady (m : Machine) (compiling : Bool) :
    m.Steady (m.setCompiling compiling) :=
  { Continues.refl m with space := .ofMemory _ _ }

/-- Replacing an index by the argument's place continues the machine. -/
theorem argumentWord_steady (m : Machine) : m.Steady m.argumentWord := by
  refine steady_pop fun index data hdata => ?_
  dsimp only
  split
  · exact steady_replaceAll _ hdata
  · exact .ordinary rfl

/-- Waiting continues the machine. -/
theorem waitWord_steady (m : Machine) : m.Steady m.waitWord :=
  steady_pop fun _ _ hdata => { Continues.refl m with data := hdata }

end Machine

/-- A halt that says that data space has been handed out to its end. -/
def Halt.isInvalidHere : Halt → Bool
  | .bye => false
  | .fault cause => cause.isInvalidHere

/-- A reason for which code may halt on this machine. -/
def Machine.Allows (m : Machine) : Halt → Prop
  | .bye => True
  | .fault cause => m.Tolerates cause

/-- While there is a cursor, and a byte of data space remains, code does not halt for lack of a
cursor. -/
theorem Machine.Allows.ne_noInstructions {m : Machine} {reason : Halt} (h : m.Allows reason)
    (hhere : m.space.here < m.space.size) (hcursor : m.cursor ≠ none) :
    reason ≠ .fault .noInstructions := by
  rintro rfl
  rcases h hhere with hordinary | ⟨hunset, -⟩
  · cases hordinary
  · exact hcursor hunset

/-- While a byte of data space remains, no reason for which code may halt says otherwise. -/
theorem Machine.Allows.isInvalidHere {m : Machine} {reason : Halt} (h : m.Allows reason)
    (hhere : m.space.here < m.space.size) : reason.isInvalidHere = false := by
  cases reason with
  | bye => rfl
  | fault cause => exact Machine.Tolerates.isInvalidHere h hhere

/-- An outcome leaves an acceptable machine in either case, and halts only for a tolerated
reason. -/
def Outcome.Meets {α : Type} (accept : Machine → Prop) (tolerate : Halt → Prop) : Outcome α → Prop
  | .done _ m => accept m
  | .halted reason m => accept m ∧ tolerate reason

/-- An outcome's contract may be weakened on both sides. -/
theorem Outcome.Meets.weaken {α : Type} {accept accept' : Machine → Prop}
    {tolerate tolerate' : Halt → Prop} {outcome : Outcome α} (h : outcome.Meets accept tolerate)
    (haccept : ∀ m, accept m → accept' m)
    (htolerate : ∀ reason, tolerate reason → tolerate' reason) :
    outcome.Meets accept' tolerate' := by
  cases outcome with
  | done value m => exact haccept m h
  | halted reason m => exact ⟨haccept m h.1, htolerate reason h.2⟩

/-- A steady change that happens or is refused leaves a machine that continues the old one. -/
theorem Machine.Steady.attempt {m : Machine} {change : Except Fault Machine} (h : m.Steady change) :
    (m.attempt change).Meets m.Continues m.Allows := by
  cases change with
  | ok n => exact h
  | error fault => exact ⟨.refl m, h⟩

/-- The contract of an effect: the machine it leaves continues the one it started from. -/
def Effect.Steady (effect : Effect) : Prop := ∀ m : Machine, (effect m).Meets m.Continues m.Allows

namespace Effect

/-- A steady change that happens or is refused is a steady effect. -/
theorem change_steady {f : Machine → Except Fault Machine} (h : ∀ m : Machine, m.Steady (f m)) :
    (change f).Steady := fun m => (h m).attempt

/-- A capacity-keeping change of the data stack is a steady effect. -/
theorem onData_steady {f : Stack .data → Except Fault (Stack .data)}
    (h : ∀ s : Stack .data, s.Conserves (f s)) : (onData f).Steady :=
  change_steady fun m => Machine.steady_data (h m.data)

/-- Writing is steady if what comes after it is. -/
theorem writeThen_steady (m : Machine) (console : Console) (bytes : List UInt8) {next : Effect}
    (h : ∀ console, (next { m with console := console }).Meets m.Continues m.Allows) :
    (Machine.writeThen { m with console := console } bytes next).Meets m.Continues m.Allows := by
  unfold Machine.writeThen
  split
  · exact h _
  · exact ⟨.free m _ _ _ _, .ordinary rfl⟩

/-- Writing a byte continues the machine. -/
theorem emitWord_steady : Effect.Steady Machine.emitWord := by
  intro m
  have hpop := m.data.pop_conserves
  unfold Machine.emitWord
  split
  · next fault hfault =>
      rw [hfault] at hpop
      exact ⟨.refl m, .ordinary (Fault.isOrdinary_of_blamesStack hpop)⟩
  · next x data hdata =>
      rw [hdata] at hpop
      exact writeThen_steady m m.console _ fun _ => { Machine.Continues.refl m with data := hpop }

/-- Writing a range of bytes continues the machine. -/
theorem typeWord_steady : Effect.Steady Machine.typeWord := by
  intro m
  have hoperands : Meets
      (fun operands : List UInt8 × Stack .data => operands.2.capacity = m.data.capacity)
      m.Tolerates (m.data.popPair >>= fun popped => do
        return (← m.space.fetchBytes popped.1 popped.2.1.toNat, popped.2.2)) :=
    (Machine.tolerates_of_stack m.data.popPair_conserves).bind fun _ hdata =>
      (Machine.tolerates_of_reads (m.space.fetchBytes_reads _ _)).bind fun _ _ => hdata
  unfold Machine.typeWord
  dsimp only
  split
  · next fault hfault =>
      rw [hfault] at hoperands
      exact ⟨.refl m, hoperands⟩
  · next bytes data hdata =>
      rw [hdata] at hoperands
      exact writeThen_steady m m.console _ fun _ =>
        { Machine.Continues.refl m with data := hoperands }

/-- Writing a newline continues the machine. -/
theorem newlineWord_steady : Effect.Steady Machine.newlineWord := fun m =>
  writeThen_steady m m.console _ fun _ => .free m _ _ _ _

/-- Listing the dictionary continues the machine. -/
theorem wordsWord_steady : Effect.Steady Machine.wordsWord := fun m =>
  writeThen_steady m m.console _ fun console => writeThen_steady m console _ fun _ =>
    .free m _ _ _ _

/-- Flushing can only fail at the console. -/
theorem flush_tolerates (m : Machine) : Meets (fun _ => True) m.Tolerates m.flush := by
  unfold Machine.flush
  split
  · trivial
  · exact .ordinary rfl

/-- Leaving the session continues the machine. -/
theorem byeWord_steady : Effect.Steady Machine.byeWord := by
  intro m
  have hflush := flush_tolerates m
  unfold Machine.byeWord
  split
  · exact ⟨.refl m, trivial⟩
  · next fault hfault =>
      rw [hfault] at hflush
      exact ⟨.refl m, hflush⟩

/-- A line that has been accepted fits the input buffer. -/
theorem acceptLine_continues (m : Machine) (line : List UInt8) : m.Continues (m.acceptLine line) :=
  { Machine.Continues.refl m with
    space := .ofMemory _ _
    line := fun _ => List.length_take_le _ _ }

/-- Reading the next line continues the machine. -/
theorem refillWord_steady : Effect.Steady Machine.refillWord := by
  intro m
  have hready : Meets (fun _ => True) m.Tolerates (do m.data.requireRoom 1; m.flush) :=
    (m.requireRoom_tolerates 1).bind fun _ _ => flush_tolerates m
  have hpush : ∀ (n o : Machine) (x : Cell), m.Continues n → n.Continues o →
      (n.attempt (o.push x)).Meets m.Continues m.Allows := by
    intro n o x hn ho
    have hconserves : o.data.Conserves (o.data.push x) := Stack.push_conserves x rfl
    unfold Machine.push
    cases hflag : o.data.push x with
    | ok data =>
        rw [hflag] at hconserves
        exact (hn.trans ho).trans { Machine.Continues.refl o with data := hconserves }
    | error fault =>
        rw [hflag] at hconserves
        exact ⟨hn, .ordinary (Fault.isOrdinary_of_blamesStack hconserves)⟩
  unfold Machine.refillWord
  dsimp only
  split
  · next fault hfault => rw [hfault] at hready; exact ⟨.refl m, hready⟩
  · split
    · exact ⟨.free m _ _ _ _, .ordinary rfl⟩
    · split
      · exact hpush _ _ _ (.free m _ _ _ _) (.refl _)
      · exact hpush _ _ _ (.free m _ _ _ _) (acceptLine_continues _ _)

end Effect

/-- A primitive of the data stack: it rearranges the stack or computes on it, and touches nothing
else. -/
def Primitive.worksOnData : Primitive → Bool
  | .depth | .drop | .dup | .over | .swap | .rot | .pick | .roll | .questionDup | .nip | .tuck
  | .twoDup | .twoDrop | .aligned | .cellPlus | .cells | .plus | .minus | .star | .slash
  | .slashMod | .mod | .negate | .onePlus | .oneMinus | .and | .or | .xor | .invert | .lShift
  | .rShift | .equals | .less | .greater | .uLess | .notEquals | .zeroEquals | .zeroLess => true
  | _ => false

open Effect in
/-- A primitive of the data stack has an effect on the data stack alone, and keeps its capacity. -/
theorem Primitive.conserves_of_worksOnData {p : Primitive} (h : p.worksOnData = true) :
    ∃ f, p.effect? = some (onData f) ∧ ∀ s : Stack .data, s.Conserves (f s) := by
  cases p <;> cases h
  case depth => exact ⟨_, rfl, fun s => Stack.push_conserves _ rfl⟩
  case drop => exact ⟨_, rfl, fun s => Stack.conserves_of_pop fun _ _ hrest => hrest⟩
  case dup =>
    exact ⟨_, rfl, fun s => Stack.conserves_of_pop fun _ _ hrest => Stack.pushAll_conserves _ hrest⟩
  case rot =>
    exact ⟨_, rfl, fun s => s.popTriple_conserves.bind fun _ hrest =>
      Stack.pushAll_conserves _ hrest⟩
  case pick => exact ⟨_, rfl, Stack.pick_conserves⟩
  case roll => exact ⟨_, rfl, Stack.roll_conserves⟩
  case questionDup => exact ⟨_, rfl, Stack.dupNonzero_conserves⟩
  case nip =>
    exact ⟨_, rfl, fun s => Stack.conserves_of_popPair fun _ _ _ hrest =>
      Stack.push_conserves _ hrest⟩
  case twoDrop => exact ⟨_, rfl, fun s => Stack.conserves_of_popPair fun _ _ _ hrest => hrest⟩
  case aligned | cellPlus | cells | negate | onePlus | oneMinus | invert | zeroEquals | zeroLess =>
    exact ⟨_, rfl, Stack.unary_conserves _⟩
  case plus | minus | star | and | or | xor | lShift | rShift | equals | less | greater | uLess
      | notEquals =>
    exact ⟨_, rfl, Stack.binary_conserves _⟩
  case slash | slashMod | mod => exact ⟨_, rfl, Stack.divide_conserves _⟩
  all_goals
    exact ⟨_, rfl, fun s => Stack.conserves_of_popPair fun _ _ _ hrest =>
      Stack.pushAll_conserves _ hrest⟩

open Effect in
/-- Every primitive with an effect of its own leaves a machine that continues the one it started
from. -/
theorem Primitive.effect_steady {p : Primitive} {effect : Effect} (h : p.effect? = some effect) :
    effect.Steady := by
  have hother : p.worksOnData = false → effect.Steady := by
    intro hdata
    cases p <;> cases hdata <;> cases h
    case toR => exact change_steady fun m => Machine.steady_stacks (Machine.toReturn_conserves _ _)
    case rFrom =>
      exact change_steady fun m => Machine.steady_stacks (Machine.fromReturn_conserves _ _)
    case rFetch =>
      exact change_steady fun m => Machine.steady_stacks (Machine.copyReturn_conserves _ _)
    case store => exact change_steady Machine.storeWord_steady
    case fetch => exact change_steady Machine.fetchWord_steady
    case cStore => exact change_steady Machine.storeByteWord_steady
    case cFetch => exact change_steady Machine.fetchByteWord_steady
    case allot => exact change_steady Machine.allotWord_steady
    case align => exact change_steady Machine.alignWord_steady
    case comma => exact change_steady Machine.commaWord_steady
    case cComma => exact change_steady Machine.byteCommaWord_steady
    case here | unused | state | toIn | argCount => exact change_steady fun m => m.push_steady _
    case exit => exact change_steady Machine.exitWord_steady
    case literal => exact change_steady Machine.literalWord_steady
    case branch => exact change_steady Machine.branchWord_steady
    case zeroBranch => exact change_steady Machine.zeroBranchWord_steady
    case find => exact change_steady Machine.findWord_steady
    case words => exact wordsWord_steady
    case latest => exact change_steady Machine.latestWord_steady
    case immediate => exact change_steady Machine.immediateWord_steady
    case hidden => exact change_steady Machine.hiddenWord_steady
    case toBody => exact change_steady Machine.bodyWord_steady
    case leftBracket | rightBracket => exact change_steady fun m => m.setCompiling_steady _
    case emit => exact emitWord_steady
    case type => exact typeWord_steady
    case cr => exact newlineWord_steady
    case source | timeAndDate | utcTimeAndDate =>
      exact change_steady fun m => Machine.steady_replaceAll _ rfl
    case refill => exact refillWord_steady
    case arg => exact change_steady Machine.argumentWord_steady
    case bye => exact byeWord_steady
    case ms => exact change_steady Machine.waitWord_steady
  cases hdata : p.worksOnData with
  | true =>
      obtain ⟨f, hf, hconserves⟩ := conserves_of_worksOnData hdata
      cases h.symm.trans hf
      exact onData_steady hconserves
  | false => exact hother hdata

end ThreadedForth
