import ThreadedForth.Proofs.CodeFrame
import ThreadedForth.Proofs.Live

/-!
# What primitives can touch

A session has few things in it: two stacks, data space with `here`, the dictionary, the cursor, the
current line and the console. Any primitive may use the data stack; of the rest, one that succeeds
touches only what belongs to it. All that a primitive can do is listed once, kind by kind, and what
it leaves alone is read off from there. In data space the list comes down to the ranges that a
primitive may write: nothing that has been handed out changes, except under the words that are given
an address, and inside the system area.
-/

namespace ThreadedForth

/-- An address lies in a range. -/
def Span.Covers (span : Span) (address : Nat) : Prop :=
  span.address ≤ address ∧ address < span.address + span.length

/-- The ranges of data space in which a primitive may change bytes. -/
def Primitive.written (p : Primitive) (m : Machine) : List Span :=
  match p, m.data.cells with
  | .store, address :: _ => [⟨address.toNat, cellSize⟩]
  | .cStore, address :: _ => [⟨address.toNat, 1⟩]
  | .comma, _ => [⟨m.space.here, cellSize⟩]
  | .cComma, _ => [⟨m.space.here, 1⟩]
  | .leftBracket, _ | .rightBracket, _ => [⟨stateAddress, cellSize⟩]
  | .refill, _ => [⟨toInAddress, cellSize⟩, ⟨inputAddress, m.config.inputBuffer⟩]
  | _, _ => []

/-- Writing bytes to a range keeps every byte outside it. -/
theorem Memory.get_write_of_not_covers (m : Memory) {address other : Nat} (bytes : List UInt8)
    (h : ¬ Span.Covers ⟨address, bytes.length⟩ other) :
    (m.write address bytes).get other = m.get other := by
  rcases Nat.lt_or_ge other address with hlow | hhigh
  · exact get_write_of_lt m bytes hlow
  · exact get_write_of_le m bytes (Nat.le_of_not_lt fun hlt => h ⟨hhigh, hlt⟩)

/-- Where two cells have been taken, they were on top. -/
theorem Stack.cells_of_popPair {kind : StackKind} {s t : Stack kind} {x y : Cell}
    (h : s.popPair = .ok (x, y, t)) : s.cells = y :: x :: t.cells := by
  unfold popPair at h
  split at h
  · next hcells =>
      cases h
      exact hcells
  · cases h

namespace Machine

/-- What a primitive that succeeds can do to a machine. -/
inductive Alters (m : Machine) : Primitive → Machine → Prop where
  | data {p : Primitive} (data : Stack .data) (clock : Clock) :
      Alters m p { m with data := data, clock := clock }
  | returns {p : Primitive} (data : Stack .data) (returns : Stack .returns) : p ∈ [.toR, .rFrom] →
      Alters m p { m with data := data, returns := returns }
  | exit (returns : Stack .returns) (cursor : Option Cell) :
      Alters m .exit { m with returns := returns, cursor := cursor }
  | cursor {p : Primitive} (data : Stack .data) (cursor : Option Cell) :
      p ∈ [.literal, .branch, .zeroBranch] →
      Alters m p { m with data := data, cursor := cursor }
  | write {p : Primitive} (data : Stack .data) {address : Nat} {bytes : List UInt8} :
      ⟨address, bytes.length⟩ ∈ p.written m →
      Alters m p { m with data := data, space := m.space.setBytes address bytes }
  | reserve {p : Primitive} (data : Stack .data) (here : Nat) : p ∈ [.allot, .align] →
      Alters m p { m with data := data, space := { m.space with here := here } }
  | append {p : Primitive} (data : Stack .data) (here : Nat) {bytes : List UInt8} :
      p ∈ [.comma, .cComma] →
      ⟨m.space.here, bytes.length⟩ ∈ p.written m →
      Alters m p { m with
        data := data
        space := { m.space with here := here, memory := m.space.memory.write m.space.here bytes } }
  | immediate {token : Nat} : m.dictionary.latest? = some token →
      Alters m .immediate { m with
        dictionary := m.dictionary.modify token fun d => { d with immediate := true } }
  | hidden (data : Stack .data) {token : Cell} {rest : List Cell} {d : Definition} :
      m.data.cells = token :: rest →
      m.dictionary.get? token.toNat = some d →
      Alters m .hidden { m with
        data := data
        dictionary := m.dictionary.modify token.toNat fun e => { e with hidden := !d.hidden } }
  | output {p : Primitive} (data : Stack .data) (output : Output) :
      p ∈ [.emit, .type, .cr, .words] →
      Alters m p { m with data := data, console := { m.console with output := output } }
  | inputEnd (data : Stack .data) (input : Input) :
      Alters m .refill { m with data := data, console := { m.console with input := input } }
  | inputLine (data : Stack .data) (input : Input) (line : List UInt8) :
      Alters m .refill
        { acceptLine { m with console := { m.console with input := input } } line with
          data := data }

/-- A change that does no more than a given primitive can do, whenever it happens. -/
def Altering (m : Machine) (p : Primitive) (change : Except Fault Machine) : Prop :=
  ∀ n, change = .ok n → m.Alters p n

variable {α : Type} {m n : Machine} {p : Primitive}

/-- Whatever a first step gives, the rest decides what is done. -/
theorem Altering.after {first : Except Fault α} {rest : α → Except Fault Machine}
    (h : ∀ value, first = .ok value → m.Altering p (rest value)) :
    m.Altering p (first >>= rest) := by
  intro n hn
  obtain ⟨value, hvalue, hrest⟩ := bind_eq_ok.mp hn
  exact h value hvalue n hrest

/-- A change that happens is judged by the machine it leaves. -/
theorem Altering.ok (h : m.Alters p n) : m.Altering p (.ok n) := by
  intro o ho
  cases ho
  exact h

/-- A change that is refused alters nothing. -/
theorem Altering.error (fault : Fault) : m.Altering p (.error fault) := by
  intro n hn
  cases hn

/-- Replacing the data stack is open to every word. -/
theorem altering_data (change : Except Fault (Stack .data)) :
    m.Altering p (do return { m with data := ← change }) :=
  .after fun data _ => .ok (.data data m.clock)

/-- Writing a cell alters no more than the word may. -/
theorem storeWord_altering (m : Machine) : m.Altering .store m.storeWord := by
  refine .after fun popped hpop => .after fun space hstore => .ok ?_
  obtain ⟨x, address, data⟩ := popped
  obtain ⟨position, hposition, hspace⟩ := bind_eq_ok.mp hstore
  cases hspace
  cases DataSpace.cellAddress_toNat hposition
  exact .write data (by simp [Primitive.written, Stack.cells_of_popPair hpop])

/-- Writing a byte alters no more than the word may. -/
theorem storeByteWord_altering (m : Machine) : m.Altering .cStore m.storeByteWord := by
  refine .after fun popped hpop => .after fun space hstore => .ok ?_
  obtain ⟨x, address, data⟩ := popped
  obtain ⟨position, hposition, hspace⟩ := bind_eq_ok.mp hstore
  cases hspace
  cases DataSpace.byteRange_toNat hposition
  have hspan : ⟨address.toNat, [x.toUInt8].length⟩ ∈ Primitive.cStore.written m := by
    simp [Primitive.written, Stack.cells_of_popPair hpop]
  exact .write data hspan

/-- Handing out bytes alters no more than the words for it may. -/
theorem altering_reserve (data : Stack .data) (length : Nat) (hp : p ∈ [.allot, .align]) :
    m.Altering p (do return { m with space := ← m.space.reserve length, data := data }) := by
  refine .after fun space hreserve => .ok ?_
  obtain ⟨-, rfl⟩ := DataSpace.reserve_eq_ok.mp hreserve
  exact .reserve data _ hp

/-- Handing out bytes and filling them alters no more than the words for it may. -/
theorem altering_append (data : Stack .data) {bytes : List UInt8} (hp : p ∈ [.comma, .cComma])
    (hbytes : ⟨m.space.here, bytes.length⟩ ∈ p.written m) :
    m.Altering p (do return { m with space := ← m.space.append bytes, data := data }) := by
  refine .after fun space happend => .ok ?_
  obtain ⟨-, rfl⟩ := DataSpace.append_eq_ok.mp happend
  exact .append data _ hp hbytes

/-- Handing out a cell and filling it alters no more than the word for it may. -/
theorem altering_appendCell (data : Stack .data) (x : Cell) :
    m.Altering .comma (do return { m with space := ← m.space.appendCells [x], data := data }) := by
  unfold DataSpace.appendCells requireAligned
  split
  · exact altering_append data (by simp) (by simp [Primitive.written])
  · exact .error _

/-- Switching the compilation state alters no more than the word may. -/
theorem setCompiling_altering (m : Machine) (compiling : Bool)
    (hp : p ∈ [.leftBracket, .rightBracket]) : m.Altering p (m.setCompiling compiling) := by
  refine .ok (.write m.data ?_)
  simp only [List.mem_cons, List.not_mem_nil, or_false] at hp
  rcases hp with rfl | rfl <;> simp [Primitive.written]

/-- Looking up a counted string alters no more than the word may. -/
theorem findWord_altering (m : Machine) : m.Altering p m.findWord := by
  refine .after fun popped _ => .after fun length _ => .after fun name _ => ?_
  dsimp only
  split
  · exact altering_data _
  · exact altering_data _

/-- Pushing the newest token alters no more than the word may. -/
theorem latestWord_altering (m : Machine) : m.Altering p m.latestWord := by
  refine .after fun _ _ => ?_
  split
  · exact altering_data _
  · exact .error _

/-- Marking the newest definition alters no more than the word may. -/
theorem immediateWord_altering (m : Machine) : m.Altering .immediate m.immediateWord := by
  unfold immediateWord
  split
  · next token htoken => exact .ok (.immediate htoken)
  · exact .error _

/-- Toggling the visibility of a definition alters no more than the word may. -/
theorem hiddenWord_altering (m : Machine) : m.Altering .hidden m.hiddenWord := by
  refine .after fun popped hpop => .after fun d hd => .after fun toggled htoggled => .ok ?_
  obtain ⟨token, data⟩ := popped
  obtain ⟨-, -, htoggled⟩ := bind_eq_ok.mp htoggled
  cases htoggled
  exact .hidden data (Stack.pop_eq_ok.mp hpop).1 (resolve_eq_ok.mp hd)

/-- Returning from a call alters no more than the word may. -/
theorem exitWord_altering (m : Machine) : m.Altering .exit m.exitWord :=
  .after fun popped _ => .ok (.exit popped.2 _)

/-- Pushing the operand alters no more than the word may. -/
theorem literalWord_altering (m : Machine) : m.Altering .literal m.literalWord :=
  .after fun _ _ => .after fun data _ => .ok (.cursor data _ (by simp))

/-- Moving the cursor by the operand alters no more than the word may. -/
theorem branchWord_altering (m : Machine) : m.Altering .branch m.branchWord :=
  .after fun _ _ => .after fun _ _ => .ok (.cursor m.data _ (by simp))

/-- Moving the cursor by the operand or past it alters no more than the word may. -/
theorem zeroBranchWord_altering (m : Machine) : m.Altering .zeroBranch m.zeroBranchWord := by
  refine .after fun popped _ => .after fun operand _ => ?_
  dsimp only
  split
  · exact .after fun _ _ => .ok (.cursor popped.2 _ (by simp))
  · exact .ok (.cursor popped.2 _ (by simp))

/-- Replacing an index by the argument's place alters no more than the word may. -/
theorem argumentWord_altering (m : Machine) : m.Altering p m.argumentWord := by
  refine .after fun popped _ => ?_
  dsimp only
  split
  · exact altering_data _
  · exact .error _

/-- Bytes that are written are written to the output before all else. -/
theorem done_of_writeThen {bytes : List UInt8} {next : Effect}
    (h : m.writeThen bytes next = .done () n) :
    ∃ output, next { m with console := { m.console with output := output } } = .done () n := by
  unfold writeThen at h
  split at h
  · exact ⟨_, h⟩
  · cases h

/-- Writing a byte alters no more than the word may. -/
theorem emitWord_alters (h : m.emitWord = .done () n) : m.Alters .emit n := by
  unfold emitWord at h
  split at h
  · cases h
  · obtain ⟨output, hdone⟩ := done_of_writeThen h
    cases hdone
    exact .output _ output (by simp)

/-- Writing a range of bytes alters no more than the word may. -/
theorem typeWord_alters (h : m.typeWord = .done () n) : m.Alters .type n := by
  unfold typeWord at h
  dsimp only at h
  split at h
  · cases h
  · obtain ⟨output, hdone⟩ := done_of_writeThen h
    cases hdone
    exact .output _ output (by simp)

/-- Writing a newline alters no more than the word may. -/
theorem newlineWord_alters (h : m.newlineWord = .done () n) : m.Alters .cr n := by
  obtain ⟨output, hdone⟩ := done_of_writeThen h
  cases hdone
  exact .output m.data output (by simp)

/-- Listing the dictionary alters no more than the word may. -/
theorem wordsWord_alters (h : m.wordsWord = .done () n) : m.Alters .words n := by
  obtain ⟨_, hnewline⟩ := done_of_writeThen h
  obtain ⟨output, hdone⟩ := done_of_writeThen hnewline
  cases hdone
  exact .output m.data output (by simp)

/-- Reading the next line alters no more than the word may. -/
theorem refillWord_alters (h : m.refillWord = .done () n) : m.Alters .refill n := by
  have hpushed : ∀ {s t : Machine} {x : Cell}, s.attempt (t.push x) = .done () n →
      ∃ data, n = { t with data := data } := by
    intro s t x hattempt
    unfold attempt at hattempt
    split at hattempt
    · next o ho =>
        obtain ⟨data, -, hpush⟩ := bind_eq_ok.mp ho
        cases hattempt
        cases hpush
        exact ⟨data, rfl⟩
    · cases hattempt
  unfold refillWord at h
  dsimp only at h
  split at h
  · cases h
  · split at h
    · cases h
    · next line input _ =>
        split at h
        · obtain ⟨data, rfl⟩ := hpushed h
          exact .inputEnd data input
        · obtain ⟨data, rfl⟩ := hpushed h
          exact .inputLine data input _

/-- The session is never left with success. -/
theorem byeWord_ne_done (m n : Machine) : m.byeWord ≠ .done () n := by
  unfold byeWord
  split <;> simp

end Machine

open Machine

/-- A change that happens does what it can do. -/
theorem Effect.alters_change {f : Machine → Except Fault Machine} {m n : Machine} {p : Primitive}
    (h : m.Altering p (f m)) (hdone : change f m = .done () n) : m.Alters p n := by
  unfold change attempt at hdone
  split at hdone
  · next heq =>
      cases hdone
      exact h n heq
  · cases hdone

open Effect in
/-- A primitive with an effect of its own does what is listed, if it succeeds. -/
theorem Primitive.effect_alters {p : Primitive} {effect : Effect} {m n : Machine}
    (h : p.effect? = some effect) (hdone : effect m = .done () n) : m.Alters p n := by
  have hother : p.worksOnData = false → m.Alters p n := by
    intro hdata
    cases p <;> cases hdata <;> cases h
    case toR | rFrom =>
      exact alters_change (.after fun changed _ => .ok (.returns changed.1 changed.2 (by simp)))
        hdone
    case rFetch =>
      refine alters_change (.after fun changed hchanged => .ok ?_) hdone
      obtain ⟨popped, -, hchanged⟩ := bind_eq_ok.mp hchanged
      obtain ⟨data, -, hchanged⟩ := bind_eq_ok.mp hchanged
      cases hchanged
      exact .data data m.clock
    case store => exact alters_change m.storeWord_altering hdone
    case cStore => exact alters_change m.storeByteWord_altering hdone
    case fetch | cFetch | toBody =>
      exact alters_change (.after fun _ _ => .after fun _ _ => altering_data _) hdone
    case allot => exact alters_change (.after fun _ _ => altering_reserve _ _ (by simp)) hdone
    case align => exact alters_change (altering_reserve m.data _ (by simp)) hdone
    case comma => exact alters_change (.after fun _ _ => altering_appendCell _ _) hdone
    case cComma =>
      exact alters_change (.after fun _ _ => altering_append _ (by simp) (by simp [written])) hdone
    case exit => exact alters_change m.exitWord_altering hdone
    case literal => exact alters_change m.literalWord_altering hdone
    case branch => exact alters_change m.branchWord_altering hdone
    case zeroBranch => exact alters_change m.zeroBranchWord_altering hdone
    case find => exact alters_change m.findWord_altering hdone
    case words => exact wordsWord_alters hdone
    case latest => exact alters_change m.latestWord_altering hdone
    case immediate => exact alters_change m.immediateWord_altering hdone
    case hidden => exact alters_change m.hiddenWord_altering hdone
    case leftBracket | rightBracket =>
      exact alters_change (m.setCompiling_altering _ (by simp)) hdone
    case emit => exact emitWord_alters hdone
    case type => exact typeWord_alters hdone
    case cr => exact newlineWord_alters hdone
    case refill => exact refillWord_alters hdone
    case arg => exact alters_change m.argumentWord_altering hdone
    case bye => exact absurd hdone (m.byeWord_ne_done n)
    case ms => exact alters_change (.after fun popped _ => .ok (.data popped.2 _)) hdone
    all_goals exact alters_change (altering_data _) hdone
  cases hdata : p.worksOnData with
  | true =>
      obtain ⟨f, hf, -⟩ := conserves_of_worksOnData hdata
      cases h.symm.trans hf
      exact alters_change (altering_data _) hdone
  | false => exact hother hdata

/-- A primitive may write at an address that it is given, inside the system area, or from `here`
on. -/
theorem Primitive.written_cases {p : Primitive} {m : Machine} {span : Span}
    (h : span ∈ p.written m) :
    p ∈ [.store, .cStore] ∨
      p ∈ [.leftBracket, .rightBracket, .refill] ∧
      span.address + span.length ≤ m.config.systemArea ∨
      p ∈ [.comma, .cComma] ∧ m.space.here ≤ span.address := by
  have hsystem : inputAddress + m.config.inputBuffer ≤ m.config.systemArea := Nat.le_refl _
  simp only [inputAddress] at hsystem
  unfold written at h
  split at h
  all_goals simp only [List.mem_cons, List.not_mem_nil, or_false] at h
  · exact .inl (by simp)
  · exact .inl (by simp)
  · exact .inr (.inr ⟨by simp, h ▸ Nat.le_refl _⟩)
  · exact .inr (.inr ⟨by simp, h ▸ Nat.le_refl _⟩)
  · refine .inr (.inl ⟨by simp, ?_⟩)
    simp only [h, stateAddress, cellSize]
    omega
  · refine .inr (.inl ⟨by simp, ?_⟩)
    simp only [h, stateAddress, cellSize]
    omega
  · refine .inr (.inl ⟨by simp, ?_⟩)
    rcases h with rfl | rfl
    · simp only [toInAddress, cellSize]
      omega
    · exact hsystem

namespace Machine

namespace Alters

variable {m n : Machine} {p : Primitive}

/-- A byte outside the ranges that a primitive may write is kept. -/
theorem get_eq (h : m.Alters p n) {address : Nat}
    (hnone : ∀ span ∈ p.written m, ¬ span.Covers address) :
    n.space.memory.get address = m.space.memory.get address := by
  cases h with
  | write _ hspan => exact Memory.get_write_of_not_covers _ _ (hnone _ hspan)
  | append _ _ _ hspan => exact Memory.get_write_of_not_covers _ _ (hnone _ hspan)
  | inputLine _ _ line =>
      simp only [Primitive.written, List.mem_cons, List.not_mem_nil, or_false, forall_eq_or_imp,
        forall_eq] at hnone
      obtain ⟨hoffset, hbuffer⟩ := hnone
      have hkept := List.length_take_le m.config.inputBuffer line
      change ((m.space.memory.write inputAddress (line.take m.config.inputBuffer)).write toInAddress
        _).get address = _
      rw [Memory.get_write_of_not_covers _ _ (by rwa [Cell.length_toBytes]),
        Memory.get_write_of_not_covers]
      exact fun hcovers =>
        hbuffer ⟨hcovers.1, Nat.lt_of_lt_of_le hcovers.2 (Nat.add_le_add_left hkept _)⟩
  | _ => rfl

/-- Bytes change only in the ranges that a primitive may write. -/
theorem covers_of_ne (h : m.Alters p n) {address : Nat}
    (hne : n.space.memory.get address ≠ m.space.memory.get address) :
    ∃ span ∈ p.written m, span.Covers address :=
  Classical.byContradiction fun hnone =>
    hne (h.get_eq fun span hspan hcovers => hnone ⟨span, hspan, hcovers⟩)

/-- Only the words that hand out space move `here`. -/
theorem here_eq (h : m.Alters p n) (hp : p ∉ [.allot, .align, .comma, .cComma]) :
    n.space.here = m.space.here := by
  cases h with
  | reserve _ _ hmem | append _ _ hmem _ => simp_all
  | _ => rfl

/-- A primitive changes one flag of one definition at most: it makes the newest one immediate, or it
hides or shows the one whose token is on the stack. -/
theorem dictionary_eq (h : m.Alters p n) :
    n.dictionary = m.dictionary ∨
      (p = .immediate ∧ ∃ token, m.dictionary.latest? = some token ∧
        n.dictionary = m.dictionary.modify token fun d => { d with immediate := true }) ∨
      p = .hidden ∧ ∃ token rest d, m.data.cells = token :: rest ∧
      m.dictionary.get? token.toNat = some d ∧
        n.dictionary = m.dictionary.modify token.toNat fun e => { e with hidden := !d.hidden } := by
  cases h with
  | immediate htoken => exact .inr (.inl ⟨rfl, _, htoken, rfl⟩)
  | hidden _ hcells hd => exact .inr (.inr ⟨rfl, _, _, _, hcells, hd, rfl⟩)
  | _ => exact .inl rfl

/-- Only the words that move cells to and from the return stack and the return from a call change
it. -/
theorem returns_eq (h : m.Alters p n) (hp : p ∉ [.toR, .rFrom, .exit]) : n.returns = m.returns := by
  cases h with
  | returns _ _ hmem => simp_all
  | exit => simp at hp
  | _ => rfl

/-- Only the words of threaded code move the cursor. -/
theorem cursor_eq (h : m.Alters p n) (hp : p ∉ [.exit, .literal, .branch, .zeroBranch]) :
    n.cursor = m.cursor := by
  cases h with
  | cursor _ _ hmem => simp_all
  | exit => simp at hp
  | _ => rfl

/-- Only the word that reads a line reads, replaces the current line and writes to the log. -/
theorem input_eq (h : m.Alters p n) (hp : p ≠ .refill) :
    n.lineLength = m.lineLength ∧ n.console.input = m.console.input ∧
    n.console.log = m.console.log := by
  cases h with
  | inputEnd | inputLine => exact absurd rfl hp
  | _ => exact ⟨rfl, rfl, rfl⟩

/-- Only four words write. -/
theorem output_eq (h : m.Alters p n) (hp : p ∉ [.emit, .type, .cr, .words]) :
    n.console.output = m.console.output := by
  cases h with
  | output _ _ hmem => simp_all
  | _ => rfl

end Alters

variable {m n : Machine} {p : Primitive} {host : HostRunner}

/-- A primitive that is dispatched with success does what is listed. -/
theorem alters_of_dispatch (hp : p ≠ .execute) (h : m.dispatch host p = some (.done () n)) :
    m.Alters p n := by
  unfold dispatch at h
  split at h
  · next effect heffect => exact p.effect_alters heffect (Option.some.inj h)
  · next hnone => exact absurd (Primitive.eq_execute_of_effect? hnone) hp

/-- A primitive that is dispatched with success and does not invoke another word leaves most of the
machine alone. Bytes of data space change only in the ranges that it may write, and those of a line
that is read lie in the system area. So no byte below `here` changes except under five words, and
none there outside the system area except under two. Where `here` is, the return stack, the cursor,
the dictionary, the current line and the console each change only under the words for them. -/
theorem dispatch_touches (hp : p ≠ .execute) (h : m.dispatch host p = some (.done () n)) :
    (∀ address, n.space.memory.get address ≠ m.space.memory.get address →
      (∃ span ∈ p.written m, span.Covers address) ∧ (p = .refill → address < m.config.systemArea)) ∧
    (p ∉ [.allot, .align, .comma, .cComma] → n.space.here = m.space.here) ∧
    (n.dictionary = m.dictionary ∨
      (p = .immediate ∧ ∃ token, m.dictionary.latest? = some token ∧
        n.dictionary = m.dictionary.modify token fun d => { d with immediate := true }) ∨
      p = .hidden ∧ ∃ token rest d, m.data.cells = token :: rest ∧
      m.dictionary.get? token.toNat = some d ∧
        n.dictionary = m.dictionary.modify token.toNat fun e => { e with hidden := !d.hidden }) ∧
    (p ∉ [.toR, .rFrom, .exit] → n.returns = m.returns) ∧
    (p ∉ [.exit, .literal, .branch, .zeroBranch] → n.cursor = m.cursor) ∧
    (p ≠ .refill → n.lineLength = m.lineLength ∧ n.console.input = m.console.input ∧
      n.console.log = m.console.log) ∧
    (p ∉ [.emit, .type, .cr, .words] → n.console.output = m.console.output) ∧
    ∀ address, address < m.space.here →
      (p ∉ [.store, .cStore, .leftBracket, .rightBracket, .refill] →
        n.space.memory.get address = m.space.memory.get address) ∧
      (m.config.systemArea ≤ address → p ∉ [.store, .cStore] →
        n.space.memory.get address = m.space.memory.get address) := by
  have halters := alters_of_dispatch hp h
  refine ⟨fun address hne => ⟨halters.covers_of_ne hne, ?_⟩, halters.here_eq, halters.dictionary_eq,
    halters.returns_eq, halters.cursor_eq, halters.input_eq, halters.output_eq,
    fun address hhere => ⟨?_, ?_⟩⟩
  · rintro rfl
    obtain ⟨span, hspan, -, hhigh⟩ := halters.covers_of_ne hne
    rcases Primitive.written_cases hspan with hstore | ⟨-, hsystem⟩ | ⟨happend, -⟩
    · simp at hstore
    · omega
    · simp at happend
  · refine fun hother => halters.get_eq fun span hspan hcovers => ?_
    rcases Primitive.written_cases hspan with hstore | ⟨hsystem, -⟩ | ⟨-, happend⟩
    · simp_all
    · simp_all
    · exact absurd hcovers.1 (by omega)
  · refine fun hsystem hother => halters.get_eq fun span hspan hcovers => ?_
    obtain ⟨hlow, hhigh⟩ := hcovers
    rcases Primitive.written_cases hspan with hstore | ⟨-, hinside⟩ | ⟨-, happend⟩
    · exact hother hstore
    · omega
    · omega

/-- A line that does not fit the input buffer is read into it, and behind the buffer no byte
changes. -/
theorem dispatch_touches_refill :
    ∃ m n, Machine.boot { inputBuffer := 1 } ["arg"] ⟨{ pending := [97, 98, 10] }, {}, []⟩ {} =
      .ok m ∧ m.dispatch (HostCode.run 0) .refill = some (.done () n) ∧ n.source = [97] ∧
      (∀ address, 17 ≤ address → n.space.memory.get address = m.space.memory.get address) ∧
      n.space.here = m.space.here ∧ n.dictionary = m.dictionary ∧ n.returns = m.returns ∧
      n.cursor = m.cursor ∧ n.console.output = m.console.output := by
  have hsession :
      ((Machine.boot { inputBuffer := 1 } ["arg"] ⟨{ pending := [97, 98, 10] }, {}, []⟩
        {}).toOption.any fun m =>
        (m.dispatch (HostCode.run 0) .refill).endsWith none fun n =>
          m.config.systemArea == 17 && n.source == [97]) = true := by decide +kernel
  obtain ⟨m, hboot, hsession⟩ := exists_ok_of_any hsession
  obtain ⟨_, n, hrefill, hchecks⟩ := Run.exists_done hsession
  simp only [Bool.and_eq_true, beq_iff_eq] at hchecks
  obtain ⟨hsystem, hsource⟩ := hchecks
  obtain ⟨hbytes, hhere, hdictionary, hreturns, hcursor, -, houtput, -⟩ :=
    dispatch_touches (by decide) hrefill
  refine ⟨m, n, hboot, hrefill, hsource, fun address haddress => ?_, hhere (by decide), ?_,
    hreturns (by decide),
    hcursor (by decide), houtput (by decide)⟩
  · refine Decidable.byContradiction fun hne => ?_
    have hinside := (hbytes address hne).2 rfl
    omega
  · simpa using hdictionary

end Machine

end ThreadedForth
