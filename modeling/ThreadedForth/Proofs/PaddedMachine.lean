import ThreadedForth.Proofs.PaddedStack

/-!
# Machines with more below, more room and earlier output

A machine is padded if its data stack lies on top of further cells, if its stacks and its dictionary
have additional capacity, if its console has accepted output and written to the log before, and if
its clock shows another time. No primitive takes notice of any of this, except for the one that
pushes the depth and those that read the clock. So a padded machine goes the same way as the machine
without the padding, until a fault that the padding causes or avoids.
-/

namespace ThreadedForth

/-- What a machine may have in addition: cells below its data stack, top first, capacity, earlier
output and earlier entries in the log. Its clock may have to agree. -/
structure Padding where
  below : List Cell := []
  data : Nat := 0
  returns : Nat := 0
  dictionary : Nat := 0
  written : Array UInt8 := #[]
  logged : List LogEntry := []
  timed : Prop := False

/-- A primitive that reads the time. -/
def Primitive.readsClock : Primitive → Bool
  | .timeAndDate | .utcTimeAndDate => true
  | _ => false

namespace Padding

/-- Without the padding, operands may be missing and capacities exhausted; with it, cells below may
take up room. -/
def excuse (k : Padding) : Excuse where
  first fault := k.below ≠ [] ∨ (match fault with
    | .stackOverflow .data _ => k.data ≠ 0
    | .stackOverflow .returns _ => k.returns ≠ 0
    | .dictionaryFull _ => k.dictionary ≠ 0
    | _ => False)
  second fault := k.below ≠ [] ∧ ∃ capacity, fault = .stackOverflow .data capacity

/-- The primitives that take no notice of the padding. -/
def Permits (k : Padding) (p : Primitive) : Prop :=
  (p = .depth → k.below = []) ∧ (p.readsClock = true → k.timed)

/-- A configuration with the additional capacities. -/
def config (k : Padding) (c : Config) : Config :=
  { c with
    dataStack := c.dataStack + k.data
    returnStack := c.returnStack + k.returns
    dictionary := c.dictionary + k.dictionary }

/-- A dictionary with the additional capacity. -/
def definitions (k : Padding) (d : Dictionary) : Dictionary :=
  { d with capacity := d.capacity + k.dictionary }

/-- An output that has accepted bytes before. -/
def output (k : Padding) (o : Output) : Output := { o with written := k.written ++ o.written }

/-- A console whose output has accepted bytes and whose log has taken entries before. -/
def console (k : Padding) (c : Console) : Console :=
  { c with output := k.output c.output, log := k.logged ++ c.log }

variable (k : Padding)

/-- The excuses cover the padding of the data stack. -/
theorem covers_data : k.excuse.Covers .data k.below k.data where
  missing h _ := .inl h
  full h _ := .inr h
  crowded h capacity := ⟨h, capacity, rfl⟩

/-- The excuses cover the additional capacity of the return stack. -/
theorem covers_returns : k.excuse.Covers .returns [] k.returns where
  missing h := absurd rfl h
  full h _ := .inr h
  crowded h := absurd rfl h

/-- Writing takes no notice of what has been written. -/
theorem write_output (o : Output) (bytes : List UInt8) :
    (k.output o).write bytes = ((o.write bytes).1, k.output (o.write bytes).2) := by
  have haccept : ∀ accepted, (k.output o).accept accepted = k.output (o.accept accepted) := by
    intro accepted
    cases hdiscarding : o.discarding with
    | true => simp [Output.accept, output, hdiscarding]
    | false => simp [Output.accept, output, hdiscarding, Array.append_assoc]
  unfold Output.write
  rw [show (k.output o).room = o.room from rfl]
  cases o.room with
  | none => rw [haccept]
  | some room =>
      dsimp only
      split
      · rw [haccept]; rfl
      · rw [haccept]; rfl

/-- Lookup below a position takes no notice of the capacity. -/
theorem findBelow_definitions (d : Dictionary) (name : List UInt8) (count : Nat) :
    (k.definitions d).findBelow name count = d.findBelow name count := by
  induction count with
  | zero => rfl
  | succ count ih =>
      rw [Dictionary.findBelow, Dictionary.findBelow, ih]
      rfl

/-- Lookup takes no notice of the capacity. -/
theorem find?_definitions (d : Dictionary) (name : List UInt8) :
    (k.definitions d).find? name = d.find? name :=
  k.findBelow_definitions d name d.size

end Padding

namespace Machine

/-- A machine with padding around its other parts, and with given stacks and clock. -/
def pad (k : Padding) (m : Machine) (data : Stack .data) (returns : Stack .returns)
    (clock : Clock) : Machine :=
  { m with
    config := k.config m.config
    data := data
    returns := returns
    dictionary := k.definitions m.dictionary
    console := k.console m.console
    clock := clock }

/-- The second machine is the first one with padding. -/
inductive Padded (k : Padding) (m : Machine) : Machine → Prop where
  | intro {data : Stack .data} {returns : Stack .returns} {clock : Clock}
      (hdata : m.data.Padded k.below k.data data)
      (hreturns : m.returns.Padded [] k.returns returns) (hclock : k.timed → clock = m.clock) :
      Padded k m (m.pad k data returns clock)

/-- A change that takes no notice of the padding. -/
def Ignores (k : Padding) (change : Machine → Except Fault Machine) : Prop :=
  ∀ ⦃m n : Machine⦄, m.Padded k n → Coupled k.excuse (Padded k) (change m) (change n)

variable {k : Padding} {m n : Machine}

/-- A padded machine stays padded with another data stack that is padded likewise. -/
theorem Padded.withData (h : m.Padded k n) {data data' : Stack .data}
    (hdata : data.Padded k.below k.data data') :
    Padded k { m with data := data } { n with data := data' } := by
  obtain ⟨-, hreturns, hclock⟩ := h
  exact ⟨hdata, hreturns, hclock⟩

/-- The data stack of a padded machine is padded. -/
theorem Padded.data (h : m.Padded k n) : m.data.Padded k.below k.data n.data := by
  obtain ⟨hdata, -, -⟩ := h
  exact hdata

/-- The return stack of a padded machine is padded. -/
theorem Padded.returns (h : m.Padded k n) : m.returns.Padded [] k.returns n.returns := by
  obtain ⟨-, hreturns, -⟩ := h
  exact hreturns

/-- The clock of a padded machine is the same if it has to agree. -/
theorem Padded.clock (h : m.Padded k n) (htimed : k.timed) : n.clock = m.clock := by
  obtain ⟨-, -, hclock⟩ := h
  exact hclock htimed

/-- To see that a change does the same on a padded machine, that machine may be taken apart. -/
theorem ignores_of_pad {change : Machine → Except Fault Machine}
    (h : ∀ m data returns clock, m.Padded k (m.pad k data returns clock) →
      Coupled k.excuse (Padded k) (change m) (change (m.pad k data returns clock))) :
      Ignores k change := by
  rintro m _ ⟨hdata, hreturns, hclock⟩
  exact h m _ _ _ ⟨hdata, hreturns, hclock⟩

/-- Putting a result on what is left of the data stack is coupled on a padded machine. -/
theorem Padded.replace (h : m.Padded k n) {data data' : Stack .data}
    (hdata : data.Padded k.below k.data data') (x : Cell) :
    Coupled k.excuse (Padded k) (do return { m with data := ← data.push x })
      (do return { n with data := ← data'.push x }) :=
  (hdata.push k.covers_data x).bind fun _ _ hpushed => .ok (h.withData hpushed)

/-- Putting several results on what is left of the data stack is coupled on a padded machine. -/
theorem Padded.replaceAll (h : m.Padded k n) {data data' : Stack .data}
    (hdata : data.Padded k.below k.data data') (xs : List Cell) :
    Coupled k.excuse (Padded k) (do return { m with data := ← data.pushAll xs })
      (do return { n with data := ← data'.pushAll xs }) :=
  (hdata.pushAll k.covers_data xs).bind fun _ _ hpushed => .ok (h.withData hpushed)

/-- Putting a cell on the data stack is coupled on a padded machine. -/
theorem Padded.push (h : m.Padded k n) (x : Cell) :
    Coupled k.excuse (Padded k) (m.push x) (n.push x) :=
  h.replace h.data x

/-- Taking a cell off the data stack first is coupled on a padded machine if what follows is. -/
theorem Padded.pop (h : m.Padded k n) {f g : Cell × Stack .data → Except Fault Machine}
    (hfg : ∀ x data data', data.Padded k.below k.data data' →
      Coupled k.excuse (Padded k) (f (x, data)) (g (x, data'))) :
    Coupled k.excuse (Padded k) (m.data.pop >>= f) (n.data.pop >>= g) :=
  Stack.Padded.pop k.covers_data h.data hfg

/-- Two pairs of stacks, of which the second has the padding. -/
structure PaddedStacks (k : Padding) (first second : Stack .data × Stack .returns) : Prop where
  data : first.1.Padded k.below k.data second.1
  returns : first.2.Padded [] k.returns second.2

/-- A word on the two stacks that takes no notice of their padding. -/
def StacksIgnore (k : Padding)
    (word : Stack .data → Stack .returns → Except Fault (Stack .data × Stack .returns)) : Prop :=
  ∀ ⦃data data' returns returns'⦄, data.Padded k.below k.data data' →
    returns.Padded [] k.returns returns' →
    Coupled k.excuse (PaddedStacks k) (word data returns) (word data' returns')

/-- Moving a cell to the return stack takes no notice of the padding. -/
theorem toReturn_ignore : StacksIgnore k Stack.toReturn := fun _ _ _ _ hdata hreturns =>
  Stack.Padded.pop k.covers_data hdata fun x _ _ hpopped =>
    (hreturns.push k.covers_returns x).bind fun _ _ hpushed => .ok ⟨hpopped, hpushed⟩

/-- Moving a cell back from the return stack takes no notice of the padding. -/
theorem fromReturn_ignore : StacksIgnore k Stack.fromReturn := fun _ _ _ _ hdata hreturns =>
  Stack.Padded.pop k.covers_returns hreturns fun x _ _ hpopped =>
    (hdata.push k.covers_data x).bind fun _ _ hpushed => .ok ⟨hpushed, hpopped⟩

/-- Copying a cell from the return stack takes no notice of the padding. -/
theorem copyReturn_ignore : StacksIgnore k Stack.copyReturn := fun _ _ _ _ hdata hreturns =>
  Stack.Padded.pop k.covers_returns hreturns fun x _ _ _ =>
    (hdata.push k.covers_data x).bind fun _ _ hpushed => .ok ⟨hpushed, hreturns⟩

/-- A padded machine stays padded with another data space and a data stack that is padded
likewise. -/
theorem Padded.withSpace (h : m.Padded k n) (space : DataSpace) {data data' : Stack .data}
    (hdata : data.Padded k.below k.data data') :
    Padded k { m with space := space, data := data } { n with space := space, data := data' } := by
  obtain ⟨-, hreturns, hclock⟩ := h
  exact ⟨hdata, hreturns, hclock⟩

/-- The data space of a padded machine is the same. -/
theorem Padded.space (h : m.Padded k n) : n.space = m.space := by
  obtain ⟨-, -, -⟩ := h
  rfl

/-- Accepting a line takes no notice of the padding: the same is noted in the log, behind what is
there. -/
theorem acceptLine_pad (k : Padding) (m : Machine) (data : Stack .data) (returns : Stack .returns)
    (clock : Clock) (line : List UInt8) :
    (m.pad k data returns clock).acceptLine line =
      (m.acceptLine line).pad k data returns clock := by
  simp only [acceptLine, logLine, pad, Padding.console, Padding.config, List.append_assoc]

/-- A padded machine accepts a line like the machine without the padding. -/
theorem Padded.acceptLine (h : m.Padded k n) (line : List UInt8) :
    (m.acceptLine line).Padded k (n.acceptLine line) := by
  obtain ⟨hdata, hreturns, hclock⟩ := h
  rw [acceptLine_pad]
  exact ⟨hdata, hreturns, hclock⟩

/-- A change of data space is coupled on a padded machine, whatever operands were taken. -/
theorem Padded.changeSpace (h : m.Padded k n) (change : DataSpace → Except Fault DataSpace)
    {data data' : Stack .data} (hdata : data.Padded k.below k.data data') :
    Coupled k.excuse (Padded k) (do return { m with space := ← change m.space, data := data })
      (do return { n with space := ← change n.space, data := data' }) := by
  rw [h.space]
  exact .same _ fun space => .ok (h.withSpace space hdata)

/-- Writing a cell takes no notice of the padding. -/
theorem storeWord_ignores : Ignores k storeWord := fun _ _ h =>
  Stack.Padded.popPair k.covers_data h.data fun x address _ _ hdata =>
    h.changeSpace (·.store address x) hdata

/-- Writing a byte takes no notice of the padding. -/
theorem storeByteWord_ignores : Ignores k storeByteWord := fun _ _ h =>
  Stack.Padded.popPair k.covers_data h.data fun x address _ _ hdata =>
    h.changeSpace (·.storeByte address x.toUInt8) hdata

/-- Handing out bytes takes no notice of the padding. -/
theorem allotWord_ignores : Ignores k allotWord := fun _ _ h =>
  h.pop fun length _ _ hdata => h.changeSpace (·.reserve length.toNat) hdata

/-- Handing out bytes up to a boundary takes no notice of the padding. -/
theorem alignWord_ignores : Ignores k alignWord := fun _ _ h => h.changeSpace (·.align) h.data

/-- Handing out a cell takes no notice of the padding. -/
theorem commaWord_ignores : Ignores k commaWord := fun _ _ h =>
  h.pop fun x _ _ hdata => h.changeSpace (·.appendCells [x]) hdata

/-- Handing out a byte takes no notice of the padding. -/
theorem byteCommaWord_ignores : Ignores k byteCommaWord := fun _ _ h =>
  h.pop fun x _ _ hdata => h.changeSpace (·.append [x.toUInt8]) hdata

/-- Reading a cell takes no notice of the padding. -/
theorem fetchWord_ignores : Ignores k fetchWord := by
  refine ignores_of_pad fun m data returns clock h => ?_
  exact h.pop fun address _ _ hdata => .same (m.space.fetch address) fun x => h.replace hdata x

/-- Reading a byte takes no notice of the padding. -/
theorem fetchByteWord_ignores : Ignores k fetchByteWord := by
  refine ignores_of_pad fun m data returns clock h => ?_
  exact h.pop fun address _ _ hdata => .same (m.space.fetchByte address) fun b =>
    h.replace hdata b.toUInt64

/-- Calling threaded code takes no notice of the padding. -/
theorem call_ignores (body : Nat) : Ignores k fun m => m.call body := by
  refine ignores_of_pad fun m data returns clock h => ?_
  exact (h.returns.push k.covers_returns _).bind fun _ _ hpushed => .ok ⟨h.data, hpushed, h.clock⟩

/-- Returning from a call takes no notice of the padding. -/
theorem exitWord_ignores : Ignores k exitWord := by
  refine ignores_of_pad fun m data returns clock h => ?_
  exact Stack.Padded.pop k.covers_returns h.returns fun _ _ _ hpopped =>
    .ok ⟨h.data, hpopped, h.clock⟩

/-- Pushing the operand takes no notice of the padding. -/
theorem literalWord_ignores : Ignores k literalWord := by
  refine ignores_of_pad fun m data returns clock h => ?_
  refine .same m.operand fun operand => ?_
  exact (h.data.push k.covers_data _).bind fun _ _ hpushed => .ok ⟨hpushed, h.returns, h.clock⟩

/-- Moving the cursor by the operand takes no notice of the padding. -/
theorem branchWord_ignores : Ignores k branchWord := by
  refine ignores_of_pad fun m data returns clock h => ?_
  exact .same m.operand fun operand => .same _ fun target => .ok ⟨h.data, h.returns, h.clock⟩

/-- Moving the cursor by the operand or past it takes no notice of the padding. -/
theorem zeroBranchWord_ignores : Ignores k zeroBranchWord := by
  refine ignores_of_pad fun m data returns clock h => ?_
  refine h.pop fun x left left' hpopped => .same m.operand fun operand => ?_
  dsimp only
  split
  · exact .same _ fun target => .ok ⟨hpopped, h.returns, h.clock⟩
  · exact .ok ⟨hpopped, h.returns, h.clock⟩

/-- Looking up a counted string takes no notice of the padding. -/
theorem findWord_ignores : Ignores k findWord := by
  refine ignores_of_pad fun m data returns clock h => ?_
  refine h.pop fun address left left' hpopped => .same _ fun length => .same _ fun name => ?_
  dsimp only
  rw [show (m.pad k _ _ _).dictionary.find? name = m.dictionary.find? name from k.find?_definitions
    m.dictionary name]
  cases m.dictionary.find? name with
  | none => exact h.replace hpopped 0
  | some token => exact h.replaceAll hpopped _

/-- Pushing the newest token takes no notice of the padding. -/
theorem latestWord_ignores : Ignores k latestWord := by
  refine ignores_of_pad fun m data returns clock h => ?_
  refine (h.data.requireRoom k.covers_data).bind fun _ _ _ => ?_
  rw [show (m.pad k _ _ _).dictionary.latest? = m.dictionary.latest? from rfl]
  cases m.dictionary.latest? with
  | none => exact .error _
  | some token => exact h.push _

/-- Marking the newest definition takes no notice of the padding. -/
theorem immediateWord_ignores : Ignores k immediateWord := by
  refine ignores_of_pad fun m data returns clock h => ?_
  unfold immediateWord
  rw [show (m.pad k _ _ _).dictionary.latest? = m.dictionary.latest? from rfl]
  cases m.dictionary.latest? with
  | none => exact .error _
  | some token => exact .ok ⟨h.data, h.returns, h.clock⟩

/-- Hiding a definition or showing it takes no notice of the padding. -/
theorem setHidden_ignores (token : Cell) (hidden : Bool) :
    Ignores k fun m => m.setHidden token hidden := by
  refine ignores_of_pad fun m data returns clock h => ?_
  exact .same (m.resolve token) fun _ => .ok ⟨h.data, h.returns, h.clock⟩

/-- Toggling the visibility of a definition takes no notice of the padding. -/
theorem hiddenWord_ignores : Ignores k hiddenWord := by
  refine ignores_of_pad fun m data returns clock h => ?_
  refine h.pop fun token left left' hpopped => .same (m.resolve token) fun definition => ?_
  exact (setHidden_ignores token _ h).bind fun _ _ htoggled => .ok (htoggled.withData hpopped)

/-- Replacing a token by the body's address takes no notice of the padding. -/
theorem bodyWord_ignores : Ignores k bodyWord := by
  refine ignores_of_pad fun m data returns clock h => ?_
  exact h.pop fun token left left' hpopped => .same (m.resolve token) fun definition =>
    h.replace hpopped _

/-- Entering or leaving the compilation state takes no notice of the padding. -/
theorem setCompiling_ignores (compiling : Bool) : Ignores k fun m => m.setCompiling compiling := by
  refine ignores_of_pad fun m data returns clock h => ?_
  exact .ok ⟨h.data, h.returns, h.clock⟩

/-- Replacing an index by the argument's place takes no notice of the padding. -/
theorem argumentWord_ignores : Ignores k argumentWord := by
  refine ignores_of_pad fun m data returns clock h => ?_
  refine h.pop fun index left left' hpopped => ?_
  dsimp only
  rw [show (m.pad k _ _ _).spans[index.toNat]? = m.spans[index.toNat]? from rfl]
  cases m.spans[index.toNat]? with
  | none => exact .error _
  | some span => exact h.replaceAll hpopped _

/-- Waiting takes no notice of the padding. -/
theorem waitWord_ignores : Ignores k waitWord := by
  refine ignores_of_pad fun m data returns clock h => ?_
  refine h.pop fun milliseconds left left' hpopped => .ok ⟨hpopped, h.returns, fun htimed => ?_⟩
  rw [h.clock htimed]

/-- Pushing a date takes no notice of the padding if it is the same date. -/
theorem dateWord_ignores {time : Clock → DateTime} (htimed : k.timed) :
    Ignores k fun m => m.dateWord (time m.clock) := by
  refine ignores_of_pad fun m data returns clock h => ?_
  obtain rfl : clock = m.clock := h.clock htimed
  exact h.replaceAll h.data _

end Machine

/-- An effect that takes no notice of the padding. -/
def Effect.Ignores (k : Padding) (effect : Effect) : Prop :=
  ∀ ⦃m n : Machine⦄, m.Padded k n →
    Run.Coupled k.excuse (Machine.Padded k) (some (effect m)) (some (effect n))

namespace Effect

variable {k : Padding} {m n : Machine}

/-- A change that happens or is refused takes no notice of the padding if its machine does not. -/
theorem change_ignores {f : Machine → Except Fault Machine} (h : Machine.Ignores k f) :
    (change f).Ignores k :=
  fun _ _ hmn => .attempt hmn (h hmn)

/-- A change of the data stack alone takes no notice of the padding if the stack word does not. -/
theorem onData_ignores {f : Stack .data → Except Fault (Stack .data)}
    (h : Stack.Ignores k.excuse k.below k.data f) : (onData f).Ignores k :=
  change_ignores fun _ _ hmn => (h hmn.data).bind fun _ _ hdata => .ok (hmn.withData hdata)

/-- A change of the two stacks alone takes no notice of the padding if the stack word does not. -/
theorem onStacks_ignores
    {f : Stack .data → Stack .returns → Except Fault (Stack .data × Stack .returns)}
    (h : Machine.StacksIgnore k f) : (onStacks f).Ignores k :=
  change_ignores <| Machine.ignores_of_pad fun _ _ _ _ hmn =>
    (h hmn.data hmn.returns).bind fun _ _ hstacks => .ok ⟨hstacks.data, hstacks.returns, hmn.clock⟩

/-- Writing takes no notice of the padding if what comes after it does not. -/
theorem writeThen_ignores (hmn : m.Padded k n) (bytes : List UInt8) {next next' : Effect}
    (hnext : ∀ ⦃s t : Machine⦄, s.Padded k t →
      Run.Coupled k.excuse (Machine.Padded k) (some (next s)) (some (next' t))) :
    Run.Coupled k.excuse (Machine.Padded k) (some (m.writeThen bytes next))
      (some (n.writeThen bytes next')) := by
  obtain ⟨hdata, hreturns, hclock⟩ := hmn
  unfold Machine.writeThen
  rw [show (m.pad k _ _ _).console.output.write bytes = _ from k.write_output m.console.output
    bytes]
  obtain ⟨written, output⟩ := m.console.output.write bytes
  cases written with
  | ok => exact hnext ⟨hdata, hreturns, hclock⟩
  | error message => exact .both (.halted _ ⟨hdata, hreturns, hclock⟩)

/-- Equal values with what is left of the data stack, which is padded on the second side. -/
structure Popped {α : Type} (k : Padding) (first second : α × Stack .data) : Prop where
  value : second.1 = first.1
  data : first.2.Padded k.below k.data second.2

/-- A byte is written once its operand has been found. -/
theorem emitWord_eq (m : Machine) :
    some m.emitWord = m.checked m.data.pop fun popped =>
      some (m.writeThen [popped.1.toUInt8] fun n => .done () { n with data := popped.2 }) := by
  unfold Machine.emitWord Machine.checked
  cases m.data.pop with
  | error fault => rfl
  | ok popped => rfl

/-- Writing a byte takes no notice of the padding. -/
theorem emitWord_ignores : Effect.Ignores k Machine.emitWord := by
  intro m n hmn
  have hpop : Coupled k.excuse (Popped k) (m.data.pop >>= pure) (n.data.pop >>= pure) :=
    hmn.data.pop k.covers_data fun _ _ _ hdata => .ok ⟨rfl, hdata⟩
  rw [bind_pure, bind_pure] at hpop
  rw [emitWord_eq, emitWord_eq]
  refine .checked hmn hpop fun popped popped' _ hpopped => ?_
  rw [hpopped.1]
  exact writeThen_ignores hmn _ fun s t hst => .both (.done () (hst.withData hpopped.2))

/-- Writing a range of bytes takes no notice of the padding. -/
theorem typeWord_ignores : Effect.Ignores k Machine.typeWord := by
  intro m n hmn
  rw [Machine.typeWord_eq, Machine.typeWord_eq, hmn.space]
  have htaken : ∀ x y s t, Stack.Padded k.below k.data s t → Coupled k.excuse (Popped k)
      (do return (← m.space.fetchBytes x (UInt64.toNat y), s))
        (do return (← m.space.fetchBytes x y.toNat, t)) :=
    fun _ _ _ _ hst => .same _ fun bytes => .ok ⟨rfl, hst⟩
  refine .checked hmn (hmn.data.popPair k.covers_data htaken) fun taken taken' _ htaken => ?_
  rw [htaken.1]
  exact writeThen_ignores hmn _ fun s t hst => .both (.done () (hst.withData htaken.2))

/-- Writing a newline takes no notice of the padding. -/
theorem newlineWord_ignores : Effect.Ignores k Machine.newlineWord := fun _ _ hmn =>
  writeThen_ignores hmn _ fun _ _ hst => .both (.done () hst)

/-- Listing the dictionary takes no notice of the padding. -/
theorem wordsWord_ignores : Effect.Ignores k Machine.wordsWord := by
  intro m n hmn
  have hnames : n.dictionary.names = m.dictionary.names := by
    obtain ⟨-, -, -⟩ := hmn
    rfl
  unfold Machine.wordsWord
  rw [hnames]
  exact writeThen_ignores hmn _ newlineWord_ignores

/-- Leaving the session takes no notice of the padding. -/
theorem byeWord_ignores : Effect.Ignores k Machine.byeWord := by
  intro m n hmn
  have hflush : n.flush = m.flush := by
    obtain ⟨-, -, -⟩ := hmn
    rfl
  unfold Machine.byeWord
  rw [hflush]
  cases m.flush with
  | ok => exact .both (.halted _ hmn)
  | error fault => exact .both (.halted _ hmn)

/-- Reading the next line, once there is room for the answer and the output is delivered. -/
def readNext (m : Machine) : Outcome Unit :=
  match m.console.input.readLine with
  | (.error message, input) =>
      .halted (.fault (.io message)) { m with console := { m.console with input := input } }
  | (.ok line, input) =>
      let n := { m with console := { m.console with input := input } }
      if line.isEmpty then n.attempt (n.push (Cell.ofFlag false))
      else n.attempt ((n.acceptLine (Input.trimLine line)).push (Cell.ofFlag true))

/-- The next line is read only if it may be. -/
theorem refillWord_eq (m : Machine) :
    some m.refillWord = m.checked (m.data.requireRoom 1 >>= fun _ => m.flush) fun _ =>
      some (readNext m) := by
  unfold Machine.refillWord Machine.checked
  cases (m.data.requireRoom 1 >>= fun _ => m.flush : Except Fault Unit) with
  | error fault => rfl
  | ok => rfl

/-- Reading the next line takes no notice of the padding. -/
theorem refillWord_ignores : Effect.Ignores k Machine.refillWord := by
  rintro m _ ⟨hdata, hreturns, hclock⟩
  rw [refillWord_eq, refillWord_eq]
  refine .checked ⟨hdata, hreturns, hclock⟩
    ((hdata.requireRoom k.covers_data).bind fun _ _ _ => .refl m.flush) fun _ _ _ _ => ?_
  unfold readNext
  rw [show (m.pad k _ _ _).console.input.readLine = m.console.input.readLine from rfl]
  obtain ⟨line, input⟩ := m.console.input.readLine
  cases line with
  | error message => exact .both (.halted _ ⟨hdata, hreturns, hclock⟩)
  | ok line =>
      have hread : Machine.Padded k { m with console := { m.console with input := input } }
          { m.pad k _ _ _ with console := { k.console m.console with input := input } } :=
            ⟨hdata, hreturns, hclock⟩
      dsimp only
      split
      · exact .attempt hread (hread.push _)
      · exact .attempt hread ((hread.acceptLine _).push _)

end Effect

open Effect in
/-- Every permitted primitive with an effect of its own does the same on a padded machine. -/
theorem Primitive.effect_ignores {k : Padding} {p : Primitive} {effect : Effect} (hp : k.Permits p)
    (h : p.effect? = some effect) : effect.Ignores k := by
  have cover := k.covers_data
  cases p <;> cases h
  case depth => exact onData_ignores (Stack.pushDepth_ignores cover (hp.1 rfl))
  case drop => exact onData_ignores fun _ _ hst => hst.pop cover fun _ _ _ huv => .ok huv
  case dup => exact onData_ignores fun _ _ hst => hst.pop cover fun _ _ _ huv => huv.pushAll cover _
  case rot =>
    exact onData_ignores fun _ _ hst => hst.popTriple cover fun _ _ _ _ _ huv => huv.pushAll cover _
  case pick => exact onData_ignores (Stack.pick_ignores cover)
  case roll => exact onData_ignores (Stack.roll_ignores cover)
  case questionDup => exact onData_ignores (Stack.dupNonzero_ignores cover)
  case twoDrop => exact onData_ignores fun _ _ hst => hst.popPair cover fun _ _ _ _ huv => .ok huv
  case toR => exact onStacks_ignores Machine.toReturn_ignore
  case rFrom => exact onStacks_ignores Machine.fromReturn_ignore
  case rFetch => exact onStacks_ignores Machine.copyReturn_ignore
  case store => exact change_ignores Machine.storeWord_ignores
  case fetch => exact change_ignores Machine.fetchWord_ignores
  case cStore => exact change_ignores Machine.storeByteWord_ignores
  case cFetch => exact change_ignores Machine.fetchByteWord_ignores
  case allot => exact change_ignores Machine.allotWord_ignores
  case align => exact change_ignores Machine.alignWord_ignores
  case comma => exact change_ignores Machine.commaWord_ignores
  case cComma => exact change_ignores Machine.byteCommaWord_ignores
  case here | unused | state | toIn | argCount =>
    exact change_ignores (Machine.ignores_of_pad fun _ _ _ _ hmn => hmn.push _)
  case slash | slashMod | mod => exact onData_ignores (Stack.divide_ignores cover _)
  case exit => exact change_ignores Machine.exitWord_ignores
  case literal => exact change_ignores Machine.literalWord_ignores
  case branch => exact change_ignores Machine.branchWord_ignores
  case zeroBranch => exact change_ignores Machine.zeroBranchWord_ignores
  case find => exact change_ignores Machine.findWord_ignores
  case words => exact wordsWord_ignores
  case latest => exact change_ignores Machine.latestWord_ignores
  case immediate => exact change_ignores Machine.immediateWord_ignores
  case hidden => exact change_ignores Machine.hiddenWord_ignores
  case toBody => exact change_ignores Machine.bodyWord_ignores
  case leftBracket | rightBracket => exact change_ignores (Machine.setCompiling_ignores _)
  case emit => exact emitWord_ignores
  case type => exact typeWord_ignores
  case cr => exact newlineWord_ignores
  case source =>
    exact change_ignores (Machine.ignores_of_pad fun _ _ _ _ hmn => hmn.replaceAll hmn.data _)
  case refill => exact refillWord_ignores
  case arg => exact change_ignores Machine.argumentWord_ignores
  case bye => exact byeWord_ignores
  case ms => exact change_ignores Machine.waitWord_ignores
  case timeAndDate => exact change_ignores (Machine.dateWord_ignores (hp.2 rfl))
  case utcTimeAndDate => exact change_ignores (Machine.dateWord_ignores (hp.2 rfl))
  case aligned | cellPlus | cells | negate | onePlus | oneMinus | invert | zeroEquals | zeroLess =>
    exact onData_ignores fun _ _ hst => hst.pop cover fun _ _ _ huv => huv.push cover _
  case nip | plus | minus | star | and | or | xor | lShift | rShift | equals | less | greater
      | uLess | notEquals =>
    exact onData_ignores fun _ _ hst => hst.popPair cover fun _ _ _ _ huv => huv.push cover _
  all_goals
    exact onData_ignores fun _ _ hst => hst.popPair cover fun _ _ _ _ huv => huv.pushAll cover _

end ThreadedForth
