import ThreadedForth.Proofs.RawExecution

/-!
# Starting a session by raw accesses

Adding definitions, laying out the arguments and the primitives, and resetting a machine, with every
access to data space a raw one. Starting a session is in range for every configuration and all
arguments: an invalid configuration is rejected first, and the areas of a valid one are addressed by
machine words.
-/

namespace ThreadedForth

/-- An operation ends as a way of building a machine does: with that machine, or with a halt for the
same reason. -/
def Ending.Builds (ending : Ending Machine Unit) : Except Fault Machine → Prop
  | .ok m => ending = .done () m
  | .error cause => ∃ m, ending = .halted (.fault cause) m

/-- The areas of a machine have the sizes that a valid configuration gives them. -/
structure Machine.Allocated (m : Machine) : Prop where
  valid : m.config.Valid
  data : m.data.capacity = m.config.dataStack
  returns : m.returns.capacity = m.config.returnStack
  space : m.space.size = m.config.dataSpace
  dictionary : m.dictionary.capacity = m.config.dictionary

/-- The areas of a well-formed machine have their sizes. -/
theorem Machine.WellFormed.allocated {m : Machine} {config : Config} {arguments : List String}
    (h : m.WellFormed config arguments) : m.Allocated := by
  obtain rfl := h.config_eq
  exact ⟨h.valid, h.data_capacity, h.returns_capacity, h.space_size, h.dictionary_capacity⟩

/-- The machine whose areas are all empty. -/
def Machine.blank (config : Config) (arguments : List String) (console : Console) (clock : Clock) :
    Machine where
  config := config
  arguments := arguments
  data := .empty config.dataStack
  returns := .empty config.returnStack
  space := .empty config.dataSpace
  dictionary := .empty config.dictionary
  cursor := none
  current := none
  lineLength := 0
  spans := []
  console := console
  clock := clock

/-- Empty areas have their sizes. -/
theorem Machine.blank_allocated {config : Config} (h : config.Valid) (arguments : List String)
    (console : Console) (clock : Clock) : (blank config arguments console clock).Allocated :=
  ⟨h, Nat.zero_add _, Nat.zero_add _, rfl, rfl⟩

namespace Raw

/-- Add a definition whose body starts at the next cell boundary, and give its token. -/
def define (name : String) (action : Action) (immediate : Bool) : Raw Machine Nat := do
  check (·.dictionary.checkAppend name)
  onSpace align
  let body ← look (·.space.here)
  check (·.dictionary.checkAppend name)
  revise fun m => { m with
    dictionary := ⟨m.dictionary.entries.push
      { name := name, action := action, body := body, immediate := immediate },
      m.dictionary.capacity⟩ }
  load fun m => subWord m.dictionary.size 1

/-- Add the given primitives in order. -/
def definePrimitives : List Primitive → Raw Machine Unit
  | [] => return ()
  | p :: rest => do
      let _ ← define p.name (.primitive p) p.isImmediate
      definePrimitives rest

/-- Lay the arguments one after the other into data space, recording where each one lies. -/
def layArguments : List String → Raw Machine Unit
  | [] => return ()
  | argument :: rest => do
      let here ← look (·.space.here)
      onSpace (appendBytes (Name.bytes argument))
      revise fun m => { m with spans := m.spans ++ [⟨here, (Name.bytes argument).length⟩] }
      layArguments rest

/-- Clear all areas. -/
def clear : Raw Machine Unit := revise fun m => { m with
  space := .empty m.space.size
  data := .empty m.data.capacity
  returns := .empty m.returns.capacity
  dictionary := .empty m.dictionary.capacity
  cursor := none
  current := none
  lineLength := 0
  spans := [] }

/-- Hand out the system area. -/
def reserveSystem : Raw Machine Unit := do
  let system ← load fun m => addWord inputAddress m.config.inputBuffer
  check (·.space.requireSpace system)
  onSpace (allot system)

/-- Clear all areas and lay out the system area, the arguments and the primitives again. -/
def reset : Raw Machine Unit := do
  clear
  reserveSystem
  layArguments (← look Machine.arguments)
  definePrimitives Primitive.all

variable {m : Machine}

/-- Adding a definition is in range. -/
theorem define_run (name : String) (action : Action) (immediate : Bool)
    (hhere : m.space.here < m.space.size) (hspace : m.space.size + cellSize < UInt64.size) :
    (define name action immediate).run m =
      .ofRun (some (m.attemptWith (m.define name action immediate))) := by
  rw [define, Machine.define, Dictionary.append]
  cases hcheck : m.dictionary.checkAppend name with
  | error cause => exact bind_halted (check_error hcheck)
  | ok _ =>
      have hfirst : (check fun n : Machine => n.dictionary.checkAppend name).run m = .done () m :=
        check_ok hcheck
      have halign := onSpace_change (align_run hhere hspace)
      rw [bind_done hfirst]
      cases hboundary : m.space.align with
      | error cause =>
          rw [hboundary] at halign
          exact bind_halted halign
      | ok space =>
          obtain ⟨-, rfl⟩ := DataSpace.align_eq_ok.mp hboundary
          rw [hboundary] at halign
          have hsecond : (check fun n : Machine => n.dictionary.checkAppend name).run
              { m with space := { m.space with here := alignUp m.space.here } } = .done () _ :=
                check_ok hcheck
          rw [bind_done halign, bind_look, bind_done hsecond, bind_revise]
          refine load_some ?_
          simp [Dictionary.size, subWord]

/-- Adding primitives in order is in range. -/
theorem definePrimitives_builds (table : List Primitive) (hhere : m.space.here < m.space.size)
    (hspace : m.space.size + cellSize < UInt64.size) :
    ((definePrimitives table).run m).Builds (m.definePrimitives table) := by
  induction table generalizing m with
  | nil => rfl
  | cons p rest ih =>
      have hrun := define_run p.name (.primitive p) p.isImmediate hhere hspace
      rw [definePrimitives, Machine.definePrimitives]
      cases hdefine : m.define p.name (.primitive p) p.isImmediate with
      | error cause =>
          rw [hdefine] at hrun
          exact ⟨m, bind_halted hrun⟩
      | ok defined =>
          obtain ⟨token, n⟩ := defined
          obtain ⟨⟨-, -, hroom⟩, -, hn⟩ := Machine.define_eq_ok.mp hdefine
          rw [hdefine] at hrun
          rw [bind_done hrun]
          refine ih ?_ ?_
          · rw [hn]; exact hroom
          · rw [hn]; exact hspace

/-- Laying arguments is in range. -/
theorem layArguments_builds (arguments : List String)
    (hspace : m.space.size + cellSize < UInt64.size) :
    ((layArguments arguments).run m).Builds (do
      let (space, spans) ← Machine.layArguments m.space arguments
      return { m with space := space, spans := m.spans ++ spans }) := by
  induction arguments generalizing m with
  | nil =>
      change Ending.done () m = .done () { m with spans := m.spans ++ [] }
      rw [List.append_nil]
  | cons argument rest ih =>
      have hrun := onSpace_change (appendBytes_run (Name.bytes argument) hspace)
      rw [layArguments, bind_look, Machine.layArguments]
      cases happend : m.space.append (Name.bytes argument) with
      | error cause =>
          rw [happend] at hrun
          exact ⟨m, bind_halted hrun⟩
      | ok space =>
          obtain ⟨-, hsize⟩ := DataSpace.append_eq_ok.mp happend
          rw [happend] at hrun
          rw [bind_done hrun, bind_revise]
          let span : Span := ⟨m.space.here, (Name.bytes argument).length⟩
          have hrest :=
            ih (m := { m with space := space, spans := m.spans ++ [span] })
              (by rw [hsize]; exact hspace)
          refine Eq.mp (congrArg (Ending.Builds _) ?_) hrest
          change (Machine.layArguments space rest >>= _) =
            ((Machine.layArguments space rest >>= fun laid => .ok (laid.1, span :: laid.2)) >>= _)
          cases Machine.layArguments space rest with
          | error cause => rfl
          | ok laid =>
              have hspans : m.spans ++ [span] ++ laid.2 = m.spans ++ span :: laid.2 := by simp
              exact congrArg (fun spans => Except.ok { m with space := laid.1, spans := spans })
                hspans

/-- Handing out the system area is in range. -/
theorem reserveSystem_run (hm : m.Allocated) (hspace : m.space = .empty m.config.dataSpace) :
    reserveSystem.run m =
      .done () { m with space := ⟨m.config.dataSpace, m.config.systemArea, .zero⟩ } := by
  have hsystem : m.config.systemArea < m.config.dataSpace := hm.valid.systemArea
  have hbound : m.config.dataSpace ≤ 0x40000000 := hm.valid.dataSpace.2
  have hword : UInt64.size = 18446744073709551616 := rfl
  have hload : (load fun n : Machine => addWord inputAddress n.config.inputBuffer).run m =
      .done m.config.systemArea m :=
        load_some (if_pos (show m.config.systemArea < UInt64.size by omega))
  have hcheck : (check fun n : Machine => n.space.requireSpace m.config.systemArea).run m =
      .done () m := by
    refine check_ok (DataSpace.requireSpace_eq_ok.mpr ?_)
    rw [hspace]
    exact (Nat.zero_add _).symm ▸ hsystem
  have hallot : (allot m.config.systemArea).run m.space =
      .done () ⟨m.config.dataSpace, m.config.systemArea, .zero⟩ := by
    rw [hspace]
    refine (allot_of_lt ?_).trans ?_
    · simp only [DataSpace.empty]; omega
    · simp only [DataSpace.empty, Nat.zero_add]
  rw [reserveSystem, bind_done hload, bind_done hcheck]
  exact onSpace_done hallot

/-- Clearing gives every area the size that it has. -/
theorem clear_run (hm : m.Allocated) :
    clear.run m = .done () (.blank m.config m.arguments m.console m.clock) := by
  rw [clear, run, revise, hm.data, hm.returns, hm.space, hm.dictionary]
  rfl

/-- Resetting a machine is in range: it gives the machine at the start of the session, or halts for
the reason why there is none. -/
theorem reset_builds (hm : m.Allocated) : (reset.run m).Builds m.reset := by
  have hsystem : m.config.systemArea < m.config.dataSpace := hm.valid.systemArea
  have hbound : m.config.dataSpace ≤ 0x40000000 := hm.valid.dataSpace.2
  have hfits : m.config.dataSpace + cellSize < UInt64.size :=
    Nat.lt_of_le_of_lt (Nat.add_le_add_right hbound _) (by decide)
  let blank : Machine := .blank m.config m.arguments m.console m.clock
  let reserved : DataSpace := ⟨m.config.dataSpace, m.config.systemArea, .zero⟩
  have hreserve : (DataSpace.empty m.config.dataSpace).reserve m.config.systemArea =
      .ok reserved := by
    refine DataSpace.reserve_eq_ok.mpr ⟨?_, ?_⟩
    · exact (Nat.zero_add _).symm ▸ hsystem
    · simp only [reserved, DataSpace.empty, Nat.zero_add]
  have hlay := layArguments_builds (m := { blank with space := reserved }) m.arguments hfits
  have hextends := Machine.layArguments_meets reserved m.arguments
  rw [reset, bind_done (clear_run hm),
    bind_done (reserveSystem_run (Machine.blank_allocated hm.valid _ _ _) rfl), bind_look,
    Machine.reset, Machine.fresh, hreserve]
  change ((layArguments m.arguments >>= fun _ => definePrimitives Primitive.all).run
    { blank with space := reserved }).Builds (Machine.layArguments reserved m.arguments >>= _)
  dsimp only at hlay
  cases harguments : Machine.layArguments reserved m.arguments with
  | error cause =>
      rw [harguments] at hlay
      obtain ⟨n, hn⟩ := hlay
      exact ⟨n, bind_halted hn⟩
  | ok laid =>
      rw [harguments] at hlay hextends
      rw [bind_done hlay]
      refine definePrimitives_builds Primitive.all (hextends.1.here_lt hsystem) ?_
      rw [hextends.1.size]
      exact hfits

/-- Start a session, if no access is out of range. -/
def boot (config : Config) (arguments : List String) (console : Console) (clock : Clock) :
    Option (Except BootError Machine) :=
  match config.validate with
  | .error error => some (.error (.config error))
  | .ok () =>
      match reset.run (.blank config arguments console clock) with
      | .done () m => some (.ok m)
      | .halted (.fault cause) _ => some (.error (.reset cause))
      | _ => none

/-- Starting a session is in range, whatever the configuration and the arguments. -/
theorem boot_eq (config : Config) (arguments : List String) (console : Console) (clock : Clock) :
    boot config arguments console clock = some (Machine.boot config arguments console clock) := by
  unfold boot Machine.boot
  cases hvalidate : config.validate with
  | error error => rfl
  | ok _ =>
      have hvalid := Config.validate_eq_ok.mp hvalidate
      have hbuilds := reset_builds (Machine.blank_allocated hvalid arguments console clock)
      change Ending.Builds _ (Machine.fresh config arguments console clock) at hbuilds
      dsimp only
      cases hfresh : Machine.fresh config arguments console clock with
      | error cause =>
          rw [hfresh] at hbuilds
          obtain ⟨n, hn⟩ := hbuilds
          rw [hn]
      | ok n =>
          rw [hfresh] at hbuilds
          rw [hbuilds]

/-- Resetting the machine of a session that can be started again is in range. -/
theorem reset_run {config : Config} {arguments : List String} (hm : m.WellFormed config arguments)
    {n : Machine} (hfresh : Machine.fresh config arguments m.console m.clock = .ok n) :
    reset.run m = .ofRun (some (m.attempt m.reset)) := by
  have hreset : m.reset = .ok n := by
    rw [Machine.reset, hm.config_eq, hm.arguments_eq]
    exact hfresh
  have hbuilds := reset_builds hm.allocated
  rw [hreset] at hbuilds ⊢
  exact hbuilds

end Raw

end ThreadedForth
