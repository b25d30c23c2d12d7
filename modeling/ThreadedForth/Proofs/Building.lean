import ThreadedForth.Proofs.Compilation
import ThreadedForth.Proofs.Footprint
import ThreadedForth.Proofs.RawSession

/-!
# Building is all or nothing

An application builds by pushing and taking cells, by adding, hiding and showing definitions, and by
compiling and storing cells. Some of these operations are made of smaller ones that check again for
themselves: `here` moves to a cell boundary before the entry of a definition is added, and a literal
is compiled as one cell and then another. The first checks cover all later ones, up to the last byte
of data space and the last entry of the dictionary. So an operation that is refused has changed
nothing, even when every raw access stays done once it has been made.
-/

namespace ThreadedForth

/-- The requests that build. -/
def Request.builds : Request → Bool
  | .push _ | .pop | .defineColon _ | .compileCell _ | .compileToken _ | .compileLiteral _
  | .setHidden _ _ | .storeCell _ _ => true
  | _ => false

/-- The operations by which an application builds: such requests, and adding host words. -/
def Operation.builds : Operation → Bool
  | .ask r => r.builds
  | .define _ _ => true

namespace Machine

variable {m n : Machine} {α : Type}

/-- A change has been made exactly when it was not refused. -/
theorem attempt_eq_done {change : Except Fault Machine} :
    m.attempt change = .done () n ↔ change = .ok n := by
  cases change with
  | ok changed => simp [attempt]
  | error fault => simp [attempt]

/-- A change with a value has been made exactly when it was not refused. -/
theorem attemptWith_eq_done {change : Except Fault (α × Machine)} {value : α} :
    m.attemptWith change = .done value n ↔ change = .ok (value, n) := by
  cases change with
  | ok changed => simp [attemptWith, Prod.ext_iff]
  | error fault => simp [attemptWith]

/-- A change is made, or refused without effect. -/
theorem attempt_cases (m : Machine) (change : Except Fault Machine) :
    (∃ reply n, some (m.attempt change) = some (.done reply n)) ∨
      ∃ cause, some (m.attempt change) = some (.halted (.fault cause) m) := by
  cases change with
  | ok changed => exact .inl ⟨(), changed, rfl⟩
  | error fault => exact .inr ⟨fault, rfl⟩

/-- A change with a value is made, or refused without effect. -/
theorem attemptWith_cases (m : Machine) (change : Except Fault (α × Machine)) :
    (∃ reply n, some (m.attemptWith change) = some (.done reply n)) ∨
      ∃ cause, some (m.attemptWith change) = some (.halted (.fault cause) m) := by
  cases change with
  | ok changed => exact .inl ⟨changed.1, changed.2, rfl⟩
  | error fault => exact .inr ⟨fault, rfl⟩

/-- The code that pushes a cell has been appended at `here`, and nothing else has been done. -/
structure CompilesLiteral (m : Machine) (x : Cell) (n : Machine) : Prop where
  rest : n =
    { m with space := { m.space with here := m.space.here + 16, memory := n.space.memory } }
  token : n.space.cellAt m.space.here = UInt64.ofNat Primitive.literal.token
  value : n.space.cellAt (m.space.here + 8) = x
  other {address : Nat} : ¬ Span.Covers ⟨m.space.here, 16⟩ address →
    n.space.memory.get address = m.space.memory.get address

/-- A literal is compiled exactly when `here` is on a cell boundary and its two cells leave at least
one byte. -/
theorem compileLiteral_eq_ok {x : Cell} :
    m.compileLiteral x = .ok n ↔
      (8 ∣ m.space.here ∧ m.space.here + 16 < m.space.size) ∧
        n = { m with space := { m.space with
          here := m.space.here + 16
          memory := m.space.memory.write m.space.here
            ([UInt64.ofNat Primitive.literal.token, x].flatMap Cell.toBytes) } } := by
  have hcell : cellSize = 8 := rfl
  have hlength : ([UInt64.ofNat Primitive.literal.token, x].flatMap Cell.toBytes).length = 16 := by
    simp [hcell]
  unfold compileLiteral
  rw [bind_eq_ok]
  constructor
  · rintro ⟨space, hspace, hn⟩
    obtain ⟨haligned, happend⟩ := DataSpace.appendCells_eq_ok.mp hspace
    obtain ⟨hroom, rfl⟩ := DataSpace.append_eq_ok.mp happend
    rw [hlength] at hroom
    cases hn
    exact ⟨⟨isAligned_ofNat.mp haligned, hroom⟩, by rw [hlength]⟩
  · rintro ⟨⟨haligned, hroom⟩, rfl⟩
    refine ⟨_, DataSpace.appendCells_eq_ok.mpr ⟨isAligned_ofNat.mpr haligned, ?_⟩, rfl⟩
    exact DataSpace.append_eq_ok.mpr ⟨by rw [hlength]; exact hroom, by rw [hlength]⟩

/-- A literal that is compiled is its code at `here`. -/
theorem compilesLiteral_of_ok {x : Cell} (h : m.compileLiteral x = .ok n) :
    m.CompilesLiteral x n := by
  obtain ⟨-, rfl⟩ := compileLiteral_eq_ok.mp h
  let code : List Cell := [UInt64.ofNat Primitive.literal.token, x]
  have htoken := m.space.memory.getCell_write_cells m.space.here (show code[0]? = some _ from rfl)
  have hvalue := m.space.memory.getCell_write_cells m.space.here (show code[1]? = some x from rfl)
  rw [Nat.mul_zero, Nat.add_zero] at htoken
  rw [Nat.mul_one] at hvalue
  exact ⟨rfl, htoken, hvalue, fun houtside => Memory.get_write_of_not_covers _ _ houtside⟩

end Machine

/-- A request that builds ends with success, or with a fault and the machine as it was. -/
theorem Request.perform_of_builds {r : Request} (h : r.builds = true) (host : HostRunner)
    (budget : Nat) (m : Machine) :
    (∃ reply n, r.perform host budget m = some (.done reply n)) ∨
      ∃ cause, r.perform host budget m = some (.halted (.fault cause) m) := by
  cases r <;> cases h
  case pop => exact m.attemptWith_cases _
  case defineColon => exact m.attemptWith_cases _
  all_goals exact m.attempt_cases _

/-- An operation that builds ends with success, or with a fault and the machine as it was. -/
theorem Operation.perform_of_builds {op : Operation} (h : op.builds = true) (budget : Nat)
    (m : Machine) :
    (∃ reply n, op.perform budget m = some (.done reply n)) ∨
      ∃ cause, op.perform budget m = some (.halted (.fault cause) m) := by
  cases op with
  | ask r => exact r.perform_of_builds h _ budget m
  | define name body => exact m.attemptWith_cases _

namespace Machine

variable {m : Machine} {config : Config} {arguments : List String}

/-- The conditions under which a definition of a given name is added. -/
def Admits (m : Machine) (name : String) : Prop :=
  name.utf8ByteSize ≤ 255 ∧ m.dictionary.size < m.config.dictionary ∧
  alignUp m.space.here < m.config.dataSpace

/-- The machine with a definition added at the next cell boundary, to which `here` has moved. -/
def withDefinition (m : Machine) (name : String) (action : Action) : Machine :=
  { m with
    dictionary := ⟨m.dictionary.entries.push
      { name := name, action := action, body := alignUp m.space.here }, m.dictionary.capacity⟩
    space := { m.space with here := alignUp m.space.here } }

/-- A definition is added exactly under these conditions, in a well-formed machine. -/
theorem WellFormed.define_eq_done (h : m.WellFormed config arguments) {name : String}
    {action : Action} {token : Nat} {n : Machine} :
    m.attemptWith (m.define name action false) = .done token n ↔
      m.Admits name ∧ token = m.dictionary.size ∧ n = m.withDefinition name action := by
  have hadmits : m.Admits name ↔
      name.utf8ByteSize ≤ Name.maxLength ∧ m.dictionary.size < m.dictionary.capacity ∧
      alignUp m.space.here < m.space.size := by
    rw [Admits, h.config_eq, h.dictionary_capacity, h.space_size]
    rfl
  rw [attemptWith_eq_done, define_eq_ok, hadmits]
  rfl

/-- Building is all or nothing in every live session, also by raw accesses, where what has been done
before a halt stays done: an operation ends with success, or with a fault and the very machine it
started from. A literal is compiled exactly when `here` is on a cell boundary and sixteen bytes and
one more are left, and a definition is added exactly when its name is short enough, the dictionary
is not full and the next cell boundary lies in data space. -/
theorem Live.building_all_or_nothing (live : Live config arguments m) (budget : Nat) :
    (∀ op : Operation, op.builds = true →
      (Raw.operation budget op).run m = .ofRun (op.perform budget m) ∧
      ((∃ reply n, (Raw.operation budget op).run m = .done reply n) ∨
        ∃ cause, (Raw.operation budget op).run m = .halted (.fault cause) m)) ∧
    (∀ x, ((∃ n, (Raw.operation budget (.ask (.compileLiteral x))).run m = .done () n) ↔
        8 ∣ m.space.here ∧ m.space.here + 16 < config.dataSpace) ∧
      ∀ n, (Raw.operation budget (.ask (.compileLiteral x))).run m = .done () n →
        m.CompilesLiteral x n) ∧
    ∀ name token n,
      ((Raw.operation budget (.ask (.defineColon name))).run m = .done token n ↔
        m.Admits name ∧ token = m.dictionary.size ∧ n = m.withDefinition name .nested) ∧
      ∀ body, (Raw.operation budget (.define name body)).run m = .done token n ↔
        m.Admits name ∧ token = m.dictionary.size ∧ n = m.withDefinition name (.host body) := by
  have hwell := live.wellFormed
  have hdone : ∀ {op : Operation} {outcome : Outcome op.Reply} {reply : op.Reply} {n : Machine},
      op.perform budget m = some outcome →
      ((Raw.operation budget op).run m = .done reply n ↔ outcome = .done reply n) := by
    intro op outcome reply n hperform
    rw [Raw.operation_run_of_live live, hperform]
    cases outcome <;> simp [Ending.ofRun]
  refine ⟨fun op hbuilds => ?_, fun x => ?_, fun name token n => ⟨?_, fun body => ?_⟩⟩
  · have hraw := Raw.operation_run_of_live live op budget
    refine ⟨hraw, ?_⟩
    rw [hraw]
    rcases op.perform_of_builds hbuilds budget m with ⟨reply, n, hperform⟩ | ⟨cause, hperform⟩
    · exact .inl ⟨reply, n, by rw [hperform]; rfl⟩
    · exact .inr ⟨cause, by rw [hperform]; rfl⟩
  · have hliteral : ∀ n, (Raw.operation budget (.ask (.compileLiteral x))).run m = .done () n ↔
        m.compileLiteral x = .ok n := fun n => (hdone rfl).trans attempt_eq_done
    refine ⟨?_, fun n h => compilesLiteral_of_ok ((hliteral n).mp h)⟩
    simp only [hliteral, compileLiteral_eq_ok, hwell.space_size, exists_and_left, exists_eq,
      and_true]
  · exact (hdone rfl).trans hwell.define_eq_done
  · exact (hdone rfl).trans hwell.define_eq_done

/-- With sixteen bytes left a literal is refused and leaves no token behind; with one more byte it
is compiled. -/
theorem Live.building_all_or_nothing_brim :
    ∃ m k n, Machine.boot { dataSpace := 40, dictionary := 77, inputBuffer := 8 } [] .null {} =
      .ok m ∧
      Machine.boot { dataSpace := 41, dictionary := 77, inputBuffer := 8 } [] .null {} = .ok k ∧
      m.space.here = 24 ∧ k.space.here = 24 ∧
      (∃ cause, (Raw.operation 0 (.ask (.compileLiteral 5))).run m = .halted (.fault cause) m) ∧
      (Raw.operation 0 (.ask (.compileLiteral 5))).run k = .done () n ∧ k.CompilesLiteral 5 n ∧
      ¬ ∃ token n, (Raw.operation 0 (.ask (.defineColon "W"))).run k = .done token n := by
  have hfirst :
      ((Machine.boot { dataSpace := 40, dictionary := 77, inputBuffer := 8 } [] .null
        {}).toOption.any
      fun m => m.space.here == 24) = true := by decide +kernel
  have hsecond :
      ((Machine.boot { dataSpace := 41, dictionary := 77, inputBuffer := 8 } [] .null
        {}).toOption.any
      fun k => k.space.here == 24 && k.dictionary.size == 77 && k.config.dictionary == 77) =
      true := by decide +kernel
  obtain ⟨m, hm, hmhere⟩ := exists_ok_of_any hfirst
  obtain ⟨k, hk, hchecks⟩ := exists_ok_of_any hsecond
  simp only [Bool.and_eq_true, beq_iff_eq] at hmhere hchecks
  obtain ⟨⟨hkhere, hksize⟩, hkcapacity⟩ := hchecks
  obtain ⟨hrefused, hmliteral, -⟩ := (Live.boot hm).building_all_or_nothing 0
  obtain ⟨-, hkliteral, hkdefine⟩ := (Live.boot hk).building_all_or_nothing 0
  obtain ⟨hiff, hcompiles⟩ := hkliteral 5
  obtain ⟨n, hn⟩ := hiff.mpr (by rw [hkhere]; decide)
  refine ⟨m, k, n, hm, hk, hmhere, hkhere, ?_, hn, hcompiles n hn, ?_⟩
  · refine (hrefused (.ask (.compileLiteral 5)) rfl).2.resolve_left ?_
    rintro ⟨reply, o, ho⟩
    have hroom := ((hmliteral 5).1.mp ⟨o, ho⟩).2
    rw [hmhere] at hroom
    exact absurd hroom (by decide)
  · rintro ⟨token, o, ho⟩
    obtain ⟨⟨-, hfull, -⟩, -⟩ := ((hkdefine "W" token o).1).mp ho
    omega

end Machine

end ThreadedForth
