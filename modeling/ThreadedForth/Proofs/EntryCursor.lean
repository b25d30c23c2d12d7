import ThreadedForth.Proofs.Compilation

/-!
# Executing with a cursor that is already set

Executing a nested definition saves the cursor and steps through the code until the cursor has its
old value again. The final return restores that value, but the code may come by it earlier: then
stepping ends half way, with saved cursors left on the return stack. For code that only computes on
the data stack, branches, calls and returns, a definition that runs to its end from an unset cursor
does so from a set one exactly when its run never comes by that cursor.

The proof runs the two machines in step. They differ in nothing but the cell in which the entry
cursor is saved, and no word of such code looks at that cell before the final return.
-/

namespace ThreadedForth

/-- A definition that pure code may name: a primitive of the data stack, a literal, a branch, the
word that returns, or a nested definition. -/
def Definition.isPure (d : Definition) : Bool :=
  match d.action with
  | .primitive p => p.worksOnData || p == .literal || p == .branch || p == .zeroBranch || p == .exit
  | .nested => true
  | .host _ => false

namespace Machine

/-- Where the branch word at an address leads when it branches. -/
def targets (m : Machine) (slot : Cell) : List Cell :=
  match m.space.fetch (slot + 8) >>= branchTarget (slot + 8) with
  | .ok target => [target]
  | .error _ => []

/-- Where the code can go on after the primitive at an address. -/
def after (m : Machine) (slot : Cell) : Primitive → List Cell
  | .exit => []
  | .literal => [slot + 8 + 8]
  | .branch => m.targets slot
  | .zeroBranch => (slot + 8 + 8) :: m.targets slot
  | _ => [slot + 8]

/-- Where the code can go on after the definition named at an address; a call also leads to what is
called. -/
def successors (m : Machine) (slot : Cell) (d : Definition) : List Cell :=
  match d.action with
  | .primitive p => m.after slot p
  | .nested => [UInt64.ofNat d.body, slot + 8]
  | .host _ => [slot + 8]

/-- The addresses at which code that starts at a given address can arrive. -/
inductive Threads (m : Machine) (start : Cell) : Cell → Prop where
  | start : Threads m start start
  | next {slot token next : Cell} {d : Definition} :
      Threads m start slot → m.space.fetch slot = .ok token →
      m.resolve token = .ok d → next ∈ m.successors slot d → Threads m start next

/-- All code that can be reached from an address is pure. -/
def PureFrom (m : Machine) (start : Cell) : Prop :=
  ∀ slot token d, Threads m start slot → m.space.fetch slot = .ok token → m.resolve token = .ok d →
    d.isPure = true

/-- Whether a set of addresses is closed under successors and holds only pure code. -/
def checkPure (m : Machine) (addresses : List Cell) : Bool :=
  addresses.all fun slot =>
    match m.space.fetch slot >>= m.resolve with
    | .ok d => d.isPure && (m.successors slot d).all addresses.contains
    | .error _ => true

/-- Code that starts in a set of addresses that passes the check is pure. -/
theorem pureFrom_of_checkPure {m : Machine} {addresses : List Cell}
    (h : m.checkPure addresses = true) {start : Cell} (hstart : start ∈ addresses) :
    m.PureFrom start := by
  have hslot : ∀ slot token d, slot ∈ addresses → m.space.fetch slot = .ok token →
      m.resolve token = .ok d →
      d.isPure = true ∧ ∀ next ∈ m.successors slot d, next ∈ addresses := by
    intro slot token d hmem hfetch hresolve
    have hcheck := List.all_eq_true.mp h slot hmem
    rw [bind_eq_ok.mpr ⟨token, hfetch, hresolve⟩] at hcheck
    simpa only [Bool.and_eq_true, List.all_eq_true, List.contains_iff_mem] using hcheck
  have hthreads : ∀ slot, m.Threads start slot → slot ∈ addresses := by
    intro slot hslot'
    induction hslot' with
    | start => exact hstart
    | next _ hfetch hresolve hnext ih => exact (hslot _ _ _ ih hfetch hresolve).2 _ hnext
  exact fun slot token d hreached hfetch hresolve =>
    (hslot slot token d (hthreads slot hreached) hfetch hresolve).1

end Machine

/-- An effect that neither reads nor writes the return stack. -/
def Effect.SparesReturns (effect : Effect) : Prop :=
  ∀ m returns, effect { m with returns := returns } = (effect m).mapMachine fun n =>
    { n with returns := returns }

/-- A machine on which pure code has done one word: only data stack and cursor have changed. -/
structure Machine.Moved (m n : Machine) (targets : List Cell) : Prop where
  space : n.space = m.space
  dictionary : n.dictionary = m.dictionary
  returns : n.returns = m.returns
  cursor : ∃ next ∈ targets, n.cursor = some next

namespace Effect

/-- A change of the data stack alone neither reads nor writes the return stack. -/
theorem onData_sparesReturns (f : Stack .data → Except Fault (Stack .data)) :
    (onData f).SparesReturns := by
  intro m returns
  unfold onData change
  dsimp only
  cases f m.data with
  | ok data => rfl
  | error fault => rfl

/-- Pushing the operand neither reads nor writes the return stack. -/
theorem literalWord_sparesReturns : (change Machine.literalWord).SparesReturns := by
  intro m returns
  unfold change Machine.literalWord
  change Machine.attempt _ (m.operand >>= _) = Outcome.mapMachine _ (m.attempt (m.operand >>= _))
  cases m.operand with
  | error fault => rfl
  | ok found =>
      change Machine.attempt _ (m.data.push found.2 >>= _) =
        Outcome.mapMachine _ (m.attempt (m.data.push found.2 >>= _))
      cases m.data.push found.2 with
      | error fault => rfl
      | ok data => rfl

/-- Branching neither reads nor writes the return stack. -/
theorem branchWord_sparesReturns : (change Machine.branchWord).SparesReturns := by
  intro m returns
  unfold change Machine.branchWord
  change Machine.attempt _ (m.operand >>= _) = Outcome.mapMachine _ (m.attempt (m.operand >>= _))
  cases m.operand with
  | error fault => rfl
  | ok found =>
      change Machine.attempt _ (branchTarget found.1 found.2 >>= _) =
        Outcome.mapMachine _ (m.attempt (branchTarget found.1 found.2 >>= _))
      cases branchTarget found.1 found.2 with
      | error fault => rfl
      | ok target => rfl

/-- Branching on the top cell neither reads nor writes the return stack. -/
theorem zeroBranchWord_sparesReturns : (change Machine.zeroBranchWord).SparesReturns := by
  intro m returns
  unfold change Machine.zeroBranchWord
  change Machine.attempt _ (m.data.pop >>= _) = Outcome.mapMachine _ (m.attempt (m.data.pop >>= _))
  cases m.data.pop with
  | error fault => rfl
  | ok popped =>
      change Machine.attempt _ (m.operand >>= _) =
        Outcome.mapMachine _ (m.attempt (m.operand >>= _))
      cases m.operand with
      | error fault => rfl
      | ok found =>
          by_cases hzero : popped.1 = 0
          · simp only [bind, Except.bind, hzero, if_true]
            cases branchTarget found.1 found.2 with
            | error fault => rfl
            | ok target => rfl
          · simp only [bind, Except.bind, hzero, if_false]
            rfl

variable {m n : Machine} {slot : Cell}

/-- A primitive of the data stack leads behind itself. -/
theorem onData_moved {f : Stack .data → Except Fault (Stack .data)}
    (hcursor : m.cursor = some (slot + 8)) (hdone : onData f m = .done () n) :
    m.Moved n [slot + 8] := by
  unfold onData change at hdone
  dsimp only at hdone
  cases hf : f m.data with
  | error fault => rw [hf] at hdone; cases hdone
  | ok data =>
      rw [hf] at hdone
      cases hdone
      exact ⟨rfl, rfl, rfl, _, List.mem_singleton_self _, hcursor⟩

/-- An operand that is read at the cursor is the cell of data space there. -/
theorem operand_eq_ok {found : Cell × Cell} (hcursor : m.cursor = some slot)
    (h : m.operand = .ok found) : found.1 = slot ∧ m.space.fetch slot = .ok found.2 := by
  unfold Machine.operand at h
  rw [hcursor] at h
  obtain ⟨x, hx, heq⟩ := bind_eq_ok.mp h
  cases heq
  exact ⟨rfl, hx⟩

/-- A literal leads behind its operand. -/
theorem literalWord_moved (hcursor : m.cursor = some (slot + 8))
    (hdone : change Machine.literalWord m = .done () n) : m.Moved n [slot + 8 + 8] := by
  unfold change Machine.attempt at hdone
  split at hdone <;> cases hdone
  next hword =>
    obtain ⟨found, hfound, hrest⟩ := bind_eq_ok.mp hword
    obtain ⟨data, -, heq⟩ := bind_eq_ok.mp hrest
    obtain ⟨hslot, -⟩ := operand_eq_ok hcursor hfound
    cases heq
    exact ⟨rfl, rfl, rfl, _, List.mem_singleton_self _, by rw [hslot]⟩

/-- A branch leads to its target. -/
theorem branchWord_moved (hcursor : m.cursor = some (slot + 8))
    (hdone : change Machine.branchWord m = .done () n) : m.Moved n (m.targets slot) := by
  unfold change Machine.attempt at hdone
  split at hdone <;> cases hdone
  next hword =>
    obtain ⟨found, hfound, hrest⟩ := bind_eq_ok.mp hword
    obtain ⟨target, htarget, heq⟩ := bind_eq_ok.mp hrest
    obtain ⟨hslot, hfetch⟩ := operand_eq_ok hcursor hfound
    cases heq
    refine ⟨rfl, rfl, rfl, target, ?_, rfl⟩
    rw [hslot] at htarget
    rw [Machine.targets, bind_eq_ok.mpr ⟨_, hfetch, htarget⟩]
    exact List.mem_singleton_self _

/-- A branch on the top cell leads to its target or behind its operand. -/
theorem zeroBranchWord_moved (hcursor : m.cursor = some (slot + 8))
    (hdone : change Machine.zeroBranchWord m = .done () n) :
    m.Moved n ((slot + 8 + 8) :: m.targets slot) := by
  unfold change Machine.attempt at hdone
  split at hdone <;> cases hdone
  next hword =>
    obtain ⟨popped, -, hrest⟩ := bind_eq_ok.mp hword
    obtain ⟨found, hfound, hrest⟩ := bind_eq_ok.mp hrest
    obtain ⟨hslot, hfetch⟩ := operand_eq_ok hcursor hfound
    dsimp only at hrest
    split at hrest
    · obtain ⟨target, htarget, heq⟩ := bind_eq_ok.mp hrest
      cases heq
      rw [hslot] at htarget
      refine ⟨rfl, rfl, rfl, target, List.mem_cons_of_mem _ ?_, rfl⟩
      rw [Machine.targets, bind_eq_ok.mpr ⟨_, hfetch, htarget⟩]
      exact List.mem_singleton_self _
    · cases hrest
      exact ⟨rfl, rfl, rfl, _, List.mem_cons_self, by rw [hslot]⟩

end Effect

/-- A pure primitive other than the one that returns has an effect that spares the return stack and
leads to one of its successors. -/
theorem Primitive.pure_effect {d : Definition} {p : Primitive} (hpure : d.isPure = true)
    (haction : d.action = .primitive p) (hexit : p ≠ .exit) :
    ∃ effect, p.effect? = some effect ∧ effect.SparesReturns ∧
      ∀ (m n : Machine) (slot : Cell), m.cursor = some (slot + 8) → effect m = .done () n →
        m.Moved n (m.after slot p) := by
  unfold Definition.isPure at hpure
  rw [haction] at hpure
  simp only [Bool.or_eq_true, beq_iff_eq, hexit, or_false] at hpure
  rcases hpure with ((hdata | rfl) | rfl) | rfl
  · obtain ⟨f, hf, -⟩ := conserves_of_worksOnData hdata
    refine ⟨_, hf, Effect.onData_sparesReturns f, fun m n slot hcursor hdone => ?_⟩
    have hafter : m.after slot p = [slot + 8] := by cases p <;> cases hdata <;> rfl
    rw [hafter]
    exact Effect.onData_moved hcursor hdone
  · exact ⟨_, rfl, Effect.literalWord_sparesReturns, fun _ _ _ => Effect.literalWord_moved⟩
  · exact ⟨_, rfl, Effect.branchWord_sparesReturns, fun _ _ _ => Effect.branchWord_moved⟩
  · exact ⟨_, rfl, Effect.zeroBranchWord_sparesReturns, fun _ _ _ => Effect.zeroBranchWord_moved⟩

/-- Outcomes of the same kind, with related machines after success. -/
def Outcome.Related (related : Machine → Machine → Prop) : Outcome Unit → Outcome Unit → Prop
  | .done _ m, .done _ n => related m n
  | .halted _ _, .halted _ _ => True
  | _, _ => False

namespace Machine

/-- Two machines take one step each, whatever the host programs, with related outcomes. -/
def StepTogether (related : Machine → Machine → Prop) (s t : Machine) : Prop :=
  ∃ first second, (∀ host, s.step host = some first) ∧ (∀ host, t.step host = some second) ∧
    first.Related related second

/-- A machine that runs pure code from an unset cursor, and its twin that runs it from a set one.
They are at the same place, with the same saved cursors on top of the one that was saved at
entry. -/
structure InStep (m : Machine) (start old : Cell) (entry : Stack .returns) (s t : Machine)
    (frames : List Cell) (slot : Cell) : Prop where
  space : s.space = m.space
  dictionary : s.dictionary = m.dictionary
  cursor : s.cursor = some slot
  threads : m.Threads start slot
  pending : ∀ saved ∈ frames, m.Threads start saved ∧ saved ≠ unsetMark
  cells : s.returns.cells = frames ++ unsetMark :: entry.cells
  room : s.returns.room + frames.length + 1 = entry.room
  twin : t = { s with returns := ⟨frames ++ old :: entry.cells, s.returns.room⟩ }

/-- Two machines in step, before or after the final return. -/
inductive Twins (m : Machine) (start old : Cell) (entry : Stack .returns) :
    Machine → Machine → Prop where
  | running {s t : Machine} {frames : List Cell} {slot : Cell} :
      InStep m start old entry s t frames slot → Twins m start old entry s t
  | finished {s : Machine} : s.cursor = none → s.returns = entry →
      Twins m start old entry s { s with cursor := some old }

variable {m s t : Machine} {start old slot : Cell} {entry : Stack .returns} {frames : List Cell}

/-- A cell that can be read lies inside data space. -/
theorem toNat_lt_of_fetch {x : Cell} (h : m.space.fetch slot = .ok x) :
    slot.toNat + cellSize ≤ m.space.size := by
  obtain ⟨position, hposition, -⟩ := bind_eq_ok.mp h
  rw [← DataSpace.cellAddress_toNat hposition]
  exact DataSpace.cellAddress_le hposition

/-- The address behind a cell that can be read is no mark of an unset cursor. -/
theorem behind_ne_unsetMark {x : Cell} (h : m.space.fetch slot = .ok x)
    (hsize : m.space.size ≤ Area.dataSpace.maximum) :
    slot + 8 ≠ unsetMark := by
  have hslot := toNat_lt_of_fetch h
  have hmaximum : Area.dataSpace.maximum = 0x40000000 := rfl
  intro heq
  have htoNat : (slot + 8).toNat = slot.toNat + 8 := by
    rw [UInt64.toNat_add, show (8 : UInt64).toNat = 8 from rfl, Nat.mod_eq_of_lt]
    simp only [cellSize] at hslot
    omega
  rw [heq, show unsetMark.toNat = 0xFFFFFFFFFFFFFFFF from rfl] at htoNat
  simp only [cellSize] at hslot
  omega

/-- The definition that a token names depends on the dictionary alone. -/
theorem resolve_congr {n : Machine} (h : m.dictionary = n.dictionary) (token : Cell) :
    m.resolve token = n.resolve token := by
  unfold resolve
  rw [h]

/-- Where a primitive leads depends on data space alone. -/
theorem after_congr {n : Machine} (h : m.space = n.space) (slot : Cell) (p : Primitive) :
    m.after slot p = n.after slot p := by
  unfold after targets
  rw [h]

/-- At a pure primitive that does not return, the machines stay in step. -/
theorem InStep.primitive (h : InStep m start old entry s t frames slot) {token : Cell}
    {d : Definition} {p : Primitive} (hfetch : m.space.fetch slot = .ok token)
    (hresolve : m.resolve token = .ok d) (hpure : d.isPure = true)
    (haction : d.action = .primitive p) (hexit : p ≠ .exit) :
    StepTogether (Twins m start old entry) s t := by
  obtain ⟨effect, heffect, hspares, hmoved⟩ := Primitive.pure_effect hpure haction hexit
  have hfetch' : s.space.fetch slot = .ok token := by rw [h.space]; exact hfetch
  have hresolve' : s.resolve token = .ok d := (resolve_congr h.dictionary token).trans hresolve
  let moving : Machine := { s with cursor := some (slot + 8) }.enter token
  let returns : Stack .returns := ⟨frames ++ old :: entry.cells, s.returns.room⟩
  have htwin : ∀ host, ({ s with returns := returns } : Machine).step host =
      some (effect { moving with returns := returns }) :=
    fun host => step_of_primitive host h.cursor hfetch' hresolve' haction heffect
  rw [hspares moving returns] at htwin
  obtain rfl := h.twin
  refine ⟨effect moving, _, fun host => step_of_primitive host h.cursor hfetch' hresolve' haction
    heffect, htwin, ?_⟩
  cases hdone : effect moving with
  | halted reason n => trivial
  | done _ n =>
      have hn := hmoved moving n slot rfl hdone
      obtain ⟨next, hnext, hcursor⟩ := hn.cursor
      rw [show moving.after slot p = m.after slot p from after_congr h.space slot p] at hnext
      have hsuccessor : next ∈ m.successors slot d := by
        rw [successors, haction]
        exact hnext
      have hstep : InStep m start old entry n { n with returns := returns } frames next :=
        { space := hn.space.trans h.space
          dictionary := hn.dictionary.trans h.dictionary
          cursor := hcursor
          threads := .next h.threads hfetch hresolve hsuccessor
          pending := h.pending
          cells := by rw [hn.returns]; exact h.cells
          room := by rw [hn.returns]; exact h.room
          twin := by rw [hn.returns]; rfl }
      exact .running hstep

/-- At a call, the machines stay in step or are both refused. -/
theorem InStep.call (h : InStep m start old entry s t frames slot) {token : Cell} {d : Definition}
    (hsize : m.space.size ≤ Area.dataSpace.maximum) (hfetch : m.space.fetch slot = .ok token)
    (hresolve : m.resolve token = .ok d) (haction : d.action = .nested) :
    StepTogether (Twins m start old entry) s t := by
  have hfetch' : s.space.fetch slot = .ok token := by rw [h.space]; exact hfetch
  have hresolve' : s.resolve token = .ok d := (resolve_congr h.dictionary token).trans hresolve
  have hsuccessors : m.successors slot d = [UInt64.ofNat d.body, slot + 8] := by
    rw [successors, haction]
  obtain rfl := h.twin
  by_cases hroom : s.returns.room = 0
  · have hfull : ∀ cells, (Stack.mk cells s.returns.room : Stack .returns).push (slot + 8) =
        .error (Stack.mk cells s.returns.room : Stack .returns).overflow := by
      intro cells
      rw [hroom]
      rfl
    have htwin :
        ∀ host, ({ s with
          returns := ⟨frames ++ old :: entry.cells, s.returns.room⟩ } : Machine).step host =
        _ := fun host => step_of_full_call host h.cursor hfetch' hresolve' haction (hfull _)
    exact ⟨_, _, fun host => step_of_full_call host h.cursor hfetch' hresolve' haction (hfull _),
      htwin, trivial⟩
  · obtain ⟨room, hroom⟩ := Nat.exists_eq_succ_of_ne_zero hroom
    have hpush : ∀ cells, (Stack.mk cells s.returns.room : Stack .returns).push (slot + 8) =
        .ok ⟨(slot + 8) :: cells, room⟩ := by
      intro cells
      rw [hroom]
      rfl
    have htwin :
        ∀ host, ({ s with
          returns := ⟨frames ++ old :: entry.cells, s.returns.room⟩ } : Machine).step host =
        _ := fun host => step_of_call host h.cursor hfetch' hresolve' haction (hpush _)
    refine ⟨_, _, fun host => step_of_call host h.cursor hfetch' hresolve' haction (hpush _), htwin,
      ?_⟩
    have hbehind : m.Threads start (slot + 8) ∧ slot + 8 ≠ unsetMark :=
      ⟨.next h.threads hfetch hresolve
        (by rw [hsuccessors]; exact List.mem_cons_of_mem _ List.mem_cons_self),
        behind_ne_unsetMark hfetch hsize⟩
    have hcount := h.room
    have hstep : InStep m start old entry
        (s.withControl ⟨some (UInt64.ofNat d.body), ⟨(slot + 8) :: s.returns.cells, room⟩,
          some token.toNat⟩)
        (s.withControl ⟨some (UInt64.ofNat d.body),
          ⟨(slot + 8) :: (frames ++ old :: entry.cells), room⟩, some token.toNat⟩)
          ((slot + 8) :: frames) (UInt64.ofNat d.body) :=
      { space := h.space
        dictionary := h.dictionary
        cursor := rfl
        threads := .next h.threads hfetch hresolve (by rw [hsuccessors]; exact List.mem_cons_self)
        pending := List.forall_mem_cons.mpr ⟨hbehind, h.pending⟩
        cells := congrArg _ h.cells
        room := by
          change room + (frames.length + 1) + 1 = entry.room
          omega
        twin := rfl }
    exact .running hstep

/-- At the word that returns, the machines stay in step; the final return restores the cursor of
each. -/
theorem InStep.exit (h : InStep m start old entry s t frames slot) {token : Cell} {d : Definition}
    (hold : restoreCursor old = some old) (hfetch : m.space.fetch slot = .ok token)
    (hresolve : m.resolve token = .ok d) (haction : d.action = .primitive .exit) :
    StepTogether (Twins m start old entry) s t := by
  have hfetch' : s.space.fetch slot = .ok token := by rw [h.space]; exact hfetch
  have hresolve' : s.resolve token = .ok d := (resolve_congr h.dictionary token).trans hresolve
  have hcount := h.room
  obtain rfl := h.twin
  cases frames with
  | nil =>
      have hpop : s.returns.pop = .ok (unsetMark, entry) := Stack.pop_eq_ok.mpr ⟨h.cells, hcount⟩
      have hpop' : (⟨old :: entry.cells, s.returns.room⟩ : Stack .returns).pop = .ok (old, entry) :=
        Stack.pop_eq_ok.mpr ⟨rfl, hcount⟩
      have htwin :
          ∀ host, ({ s with returns := ⟨old :: entry.cells, s.returns.room⟩ } : Machine).step host =
          some (.done () (s.withControl ⟨restoreCursor old, entry, some token.toNat⟩)) :=
        fun host => step_of_exit host h.cursor hfetch' hresolve' haction hpop'
      rw [hold] at htwin
      refine ⟨_, _, fun host => step_of_exit host h.cursor hfetch' hresolve' haction hpop, htwin,
        ?_⟩
      have hfinished : (s.withControl ⟨restoreCursor unsetMark, entry, some token.toNat⟩).cursor =
          none := rfl
      exact .finished hfinished rfl
  | cons saved rest =>
      obtain ⟨⟨hthreads, hset⟩, hpending⟩ := List.forall_mem_cons.mp h.pending
      have hback : restoreCursor saved = some saved := if_neg hset
      have hpop : s.returns.pop =
          .ok (saved, ⟨rest ++ unsetMark :: entry.cells, s.returns.room + 1⟩) :=
        Stack.pop_eq_ok.mpr ⟨h.cells, rfl⟩
      have hpop' : (⟨saved :: rest ++ old :: entry.cells, s.returns.room⟩ : Stack .returns).pop =
          .ok (saved, ⟨rest ++ old :: entry.cells, s.returns.room + 1⟩) :=
            Stack.pop_eq_ok.mpr ⟨rfl, rfl⟩
      have htwin : ∀ host,
          ({ s with
            returns := ⟨saved :: rest ++ old :: entry.cells, s.returns.room⟩ } : Machine).step
              host =
            some (.done () (s.withControl
              ⟨restoreCursor saved, ⟨rest ++ old :: entry.cells, s.returns.room + 1⟩,
                some token.toNat⟩)) :=
        fun host => step_of_exit host h.cursor hfetch' hresolve' haction hpop'
      refine ⟨_, _, fun host => step_of_exit host h.cursor hfetch' hresolve' haction hpop, htwin,
        ?_⟩
      rw [hback]
      have hstep : InStep m start old entry
          (s.withControl ⟨some saved, ⟨rest ++ unsetMark :: entry.cells, s.returns.room + 1⟩,
            some token.toNat⟩)
          (s.withControl ⟨some saved, ⟨rest ++ old :: entry.cells, s.returns.room + 1⟩,
            some token.toNat⟩)
          rest saved :=
        { space := h.space
          dictionary := h.dictionary
          cursor := rfl
          threads := hthreads
          pending := hpending
          cells := rfl
          room := by
            rw [List.length_cons] at hcount
            change s.returns.room + 1 + rest.length + 1 = entry.room
            omega
          twin := rfl }
      exact .running hstep

/-- Two machines in step take one step together. -/
theorem InStep.step (hpure : m.PureFrom start) (hsize : m.space.size ≤ Area.dataSpace.maximum)
    (hold : restoreCursor old = some old) (h : InStep m start old entry s t frames slot) :
    StepTogether (Twins m start old entry) s t := by
  have hcursor : t.cursor = some slot := by rw [h.twin]; exact h.cursor
  have hspace : t.space = m.space := by rw [h.twin]; exact h.space
  have hdictionary : t.dictionary = m.dictionary := by rw [h.twin]; exact h.dictionary
  cases hfetch : m.space.fetch slot with
  | error fault =>
      exact ⟨_, _, fun host => step_of_fetch_error host h.cursor (by rw [h.space]; exact hfetch),
        fun host => step_of_fetch_error host hcursor (by rw [hspace]; exact hfetch), trivial⟩
  | ok token =>
      cases hresolve : m.resolve token with
      | error fault =>
          exact ⟨_, _, fun host => step_of_resolve_error host h.cursor
            (by rw [h.space]; exact hfetch)
              ((resolve_congr h.dictionary token).trans hresolve),
            fun host => step_of_resolve_error host hcursor (by rw [hspace]; exact hfetch)
              ((resolve_congr hdictionary token).trans hresolve), trivial⟩
      | ok d =>
          have hd := hpure slot token d h.threads hfetch hresolve
          cases haction : d.action with
          | nested => exact h.call hsize hfetch hresolve haction
          | host code => rw [Definition.isPure, haction] at hd; cases hd
          | primitive p =>
              by_cases hexit : p = .exit
              · exact h.exit hold hfetch hresolve (hexit ▸ haction)
              · exact h.primitive hfetch hresolve hd haction hexit

/-- A machine with an unset cursor is not stepped any further. -/
theorem Reaches.eq_of_unset {n : Machine} (h : Reaches none m n) (hcursor : m.cursor = none) :
    n = m := by
  cases h with
  | refl _ => rfl
  | step hne _ _ => exact absurd hcursor hne

/-- After the final return nothing is left to run. -/
theorem finished_run (hcursor : s.cursor = none) (hreturns : s.returns = entry) {host : HostRunner}
    {budget : Nat} {n : Machine} (hrun : s.stepUntil host none budget = some (.done () n)) :
    n.returns = entry ∧
    Reaches (some old) { s with cursor := some old } { n with cursor := some old } ∧
      ∀ u, Reaches none s u → u.cursor ≠ some old := by
  rw [stepUntil_of_cursor hcursor] at hrun
  cases hrun
  refine ⟨hreturns, .refl _, fun u hu => ?_⟩
  rw [hu.eq_of_unset hcursor, hcursor]
  exact fun heq => (nomatch heq)

/-- If a machine runs pure code to its end from an unset cursor, its twin does so too, unless the
run comes by the cursor of the twin: then the twin is stopped there, still in step. -/
theorem Twins.run (hpure : m.PureFrom start) (hsize : m.space.size ≤ Area.dataSpace.maximum)
    (hold : restoreCursor old = some old) (h : Twins m start old entry s t) {host : HostRunner}
    {budget : Nat} {n : Machine} (hrun : s.stepUntil host none budget = some (.done () n)) :
    (n.returns = entry ∧ Reaches (some old) t { n with cursor := some old } ∧
        ∀ u, Reaches none s u → u.cursor ≠ some old) ∨
      ∃ u v frames, Reaches none s u ∧ Reaches (some old) t v ∧
        InStep m start old entry u v frames old := by
  induction budget generalizing s t with
  | zero =>
      cases h with
      | finished hcursor hreturns => exact .inl (finished_run hcursor hreturns hrun)
      | running hstep =>
          rw [stepUntil, if_neg (by rw [hstep.cursor]; exact Option.some_ne_none _)] at hrun
          cases hrun
  | succ budget ih =>
      cases h with
      | finished hcursor hreturns => exact .inl (finished_run hcursor hreturns hrun)
      | @running _ frames slot hstep =>
          have hset : s.cursor ≠ none := by rw [hstep.cursor]; exact Option.some_ne_none _
          by_cases hslot : slot = old
          · subst hslot
            exact .inr ⟨s, t, frames, .refl s, .refl t, hstep⟩
          · have hne : s.cursor ≠ some old := by
              rw [hstep.cursor]; exact fun heq => hslot (Option.some.inj heq)
            have hne' : t.cursor ≠ some old := by rw [hstep.twin]; exact hne
            obtain ⟨first, second, hfirst, hsecond, hrelated⟩ := hstep.step hpure hsize hold
            rw [stepUntil, if_neg hset, hfirst host] at hrun
            cases first with
            | halted reason s' => cases hrun
            | done _ s' =>
                cases second with
                | halted reason t' => exact hrelated.elim
                | done _ t' =>
                    rcases ih hrelated hrun with ⟨hreturns, hreaches, hnever⟩ |
                      ⟨u, v, frames', hu, hv, hin⟩
                    · refine .inl ⟨hreturns, .step hne' hsecond hreaches, fun u hu => ?_⟩
                      cases hu with
                      | refl _ => exact hne
                      | step _ hnext hrest =>
                          cases (hfirst host).symm.trans (hnext host)
                          exact hnever u hrest
                    · exact .inr ⟨u, v, frames', .step hset hfirst hu, .step hne' hsecond hv, hin⟩

variable {config : Config} {arguments : List String}

/-- A definition whose code is pure and that runs to its end from an unset cursor runs to its end
from a set one, with the same data stack, the return stack as it was and the cursor back at its old
value, exactly when the run from the unset cursor never comes by that value. -/
theorem Live.execute_returns_iff (live : Live config arguments m) {token : Cell} {d : Definition}
    (hresolve : m.resolve token = .ok d) (haction : d.action = .nested)
    (hpure : m.PureFrom (UInt64.ofNat d.body)) {host : HostRunner} {budget : Nat} {n : Machine}
    (hrun : { m with cursor := none }.execute host budget token = some (.done () n))
    (hold : old.toNat < m.space.size) :
    ∃ entered, ({ m with cursor := none }.enter token).call d.body = .ok entered ∧
      ((∃ budget' n', { m with cursor := some old }.execute host budget' token =
        some (.done () n') ∧
          n'.data = n.data ∧ n'.returns = m.returns ∧ n'.cursor = some old) ↔
        ∀ s, Reaches none entered s → s.cursor ≠ some old) := by
  have hsize : m.space.size ≤ Area.dataSpace.maximum :=
    live.wellFormed.space_size ▸ live.wellFormed.valid.dataSpace.2
  have hrestore : restoreCursor old = some old := restoreCursor_of_lt hold hsize
  have hunset : ({ m with cursor := none } : Machine).resolve token = .ok d := hresolve
  have hset : ({ m with cursor := some old } : Machine).resolve token = .ok d := hresolve
  obtain ⟨⟨_, room⟩, hpush⟩ := pushed_of_execute hunset haction hrun
  obtain ⟨rfl, hroom⟩ := Stack.push_eq_ok.mp hpush
  have hpush' : m.returns.push old = .ok ⟨old :: m.returns.cells, room⟩ :=
    Stack.push_eq_ok.mpr ⟨rfl, hroom⟩
  let start := UInt64.ofNat d.body
  let entered := m.withControl ⟨some start, ⟨unsetMark :: m.returns.cells, room⟩, some token.toNat⟩
  let twin := m.withControl ⟨some start, ⟨old :: m.returns.cells, room⟩, some token.toNat⟩
  have hcall : ({ m with cursor := none }.enter token).call d.body = .ok entered :=
    bind_eq_ok.mpr ⟨_, hpush, rfl⟩
  have htwin : ∀ budget, { m with cursor := some old }.execute host budget token =
      twin.stepUntil host (some old) budget :=
    fun budget => execute_of_nested host budget hset haction hpush'
  have hin : InStep m start old m.returns entered twin [] start :=
    { space := rfl
      dictionary := rfl
      cursor := rfl
      threads := .start
      pending := fun _ hmem => (nomatch hmem)
      cells := rfl
      room := hroom
      twin := rfl }
  rw [execute_of_nested host budget hunset haction hpush] at hrun
  refine ⟨entered, hcall, ?_⟩
  rcases (Twins.running hin).run hpure hsize hrestore hrun with
    ⟨hreturns, hreaches, hnever⟩ | ⟨u, v, frames, hu, hv, hstopped⟩
  · refine ⟨fun _ => hnever, fun _ => ?_⟩
    obtain ⟨count, hcount⟩ := hreaches.stepUntil_eq
    refine ⟨0 + count, { n with cursor := some old }, ?_, rfl, hreturns, rfl⟩
    have hback : ({ n with cursor := some old } : Machine).cursor = some old := rfl
    rw [htwin, hcount, stepUntil_of_cursor hback]
  · -- The twin is stopped where the run comes by its cursor, before the saved one is taken back.
    refine ⟨fun ⟨budget', n', hexecute, _, hreturns, _⟩ => ?_,
      fun hnever => absurd hstopped.cursor (hnever u hu)⟩
    obtain ⟨count, hcount⟩ := hv.stepUntil_eq
    have hcursor : v.cursor = some old := by rw [hstopped.twin]; exact hstopped.cursor
    rw [htwin] at hexecute
    have hmono := stepUntil_mono hexecute count
    rw [hcount, stepUntil_of_cursor hcursor] at hmono
    cases hmono
    have hlength := congrArg (fun returns => returns.cells.length) hreturns
    rw [hstopped.twin] at hlength
    simp only [List.length_append, List.length_cons] at hlength
    omega

/-- A session with one definition, which pushes a literal: its token, its code, and how it runs with
the cursor unset and at an address that its code does not come by. -/
theorem literal_session :
    ∃ m d, Live {} [] m ∧ m.resolve 77 = .ok d ∧ d.action = .nested ∧ d.body = 272 ∧
      m.PureFrom 272 ∧ m.space.size = 65536 ∧ m.data.cells = [] ∧ m.returns = ⟨[], 256⟩ ∧
      ∃ n n', { m with cursor := none }.execute (fun _ _ => none) 2 77 = some (.done () n) ∧
        n.data.cells = [5] ∧
        { m with cursor := some 8 }.execute (fun _ _ => none) 2 77 = some (.done () n') ∧
        n'.data = n.data ∧ n'.returns = m.returns ∧ n'.cursor = some 8 := by
  have hsession : ((Machine.boot {} [] Console.null {}).toOption.any fun b =>
      (b.compileColon "W" [.literal 5]).toOption.any fun compiled =>
        let m := compiled.2
        compiled.1 == 77 && alignUp b.space.here == 272 && m.checkPure [272, 288] &&
        m.space.size == 65536 &&
          m.data.cells == [] && m.returns.cells == [] && m.returns.room == 256 &&
          ({ m with cursor := none }.execute (fun _ _ => none) 2 77).endsWith none fun n =>
          n.data.cells == [5] &&
            ({ m with cursor := some 8 }.execute (fun _ _ => none) 2 77).endsWith none fun n' =>
              n'.data.cells == [5] && n'.data.room == n.data.room && n'.returns.cells == [] &&
                n'.returns.room == 256 && n'.cursor == some 8) = true := by decide +kernel
  obtain ⟨b, hboot, hcompiled⟩ := exists_ok_of_any hsession
  obtain ⟨⟨token, m⟩, hcompile, hchecks⟩ := exists_ok_of_any hcompiled
  simp only [Bool.and_eq_true, beq_iff_eq] at hchecks
  obtain ⟨⟨⟨⟨⟨⟨⟨rfl, hhere⟩, hpure⟩, hsize⟩, hdata⟩, hcells⟩, hroom⟩, hruns⟩ := hchecks
  obtain ⟨_, n, hunset, hchecks⟩ := Run.exists_done hruns
  obtain ⟨hfive, hruns⟩ := (Bool.and_eq_true _ _).mp hchecks
  obtain ⟨_, n', hset, hchecks⟩ := Run.exists_done hruns
  simp only [Bool.and_eq_true, beq_iff_eq] at hfive hchecks
  obtain ⟨⟨⟨⟨hfive', hsame⟩, hcells'⟩, hroom'⟩, hcursor⟩ := hchecks
  have made : Compiled {} [] _ m := .define (.start (.boot hboot)) (fun item hitem => by
    rw [List.mem_singleton.mp hitem]
    trivial) hcompile
  obtain ⟨d, hresolve, haction, hbody, -⟩ := made.loaded.colon List.mem_cons_self
  have hreturns : m.returns = ⟨[], 256⟩ := Stack.eq_of_cells hcells hroom
  exact ⟨m, d, made.live, hresolve, haction, hbody.trans hhere,
    pureFrom_of_checkPure hpure List.mem_cons_self, hsize, hdata, hreturns, n, n', hunset, hfive,
    hset, Stack.eq_of_cells (hfive'.trans hfive.symm) hsame,
    (Stack.eq_of_cells hcells' hroom').trans hreturns.symm, hcursor⟩

/-- Executed at the first address of its own code, the definition returns at once: the literal has
not been pushed and the saved cursor is left on the return stack, although from an unset cursor the
definition runs to its end. -/
theorem Live.execute_at_own_code :
    ∃ m d, Live {} [] m ∧ m.resolve 77 = .ok d ∧ d.action = .nested ∧
      m.PureFrom (UInt64.ofNat d.body) ∧
      (∃ n, { m with cursor := none }.execute (fun _ _ => none) 2 77 = some (.done () n) ∧
        n.data.cells = [5]) ∧
      ∀ host budget, ∃ n, { m with cursor := some 272 }.execute host budget 77 = some (.done () n) ∧
        n.data.cells = [] ∧ m.returns.cells = [] ∧ n.returns.cells = [272] ∧
        n.cursor = some 272 := by
  obtain ⟨m, d, live, hresolve, haction, hbody, hpure, -, hdata, hreturns, n, -, hrun, hfive, -⟩ :=
    literal_session
  refine ⟨m, d, live, hresolve,
    haction, by rw [hbody]; exact hpure, ⟨n, hrun, hfive⟩, fun host budget => ?_⟩
  have hset : ({ m with cursor := some 272 } : Machine).resolve 77 = .ok d := hresolve
  have hpush : ({ m with cursor := some 272 } : Machine).returns.push 272 = .ok ⟨[272], 255⟩ := by
    change m.returns.push 272 = _
    rw [hreturns]
    rfl
  let entered := m.withControl ⟨some (UInt64.ofNat 272), ⟨[272], 255⟩, some (77 : Cell).toNat⟩
  have hback : entered.cursor = some 272 := rfl
  rw [execute_of_nested host budget hset haction hpush, hbody]
  exact ⟨entered, stepUntil_of_cursor hback host budget, hdata, by rw [hreturns], rfl, rfl⟩

/-- A definition that pushes a literal runs to its end from a cursor that its code does not come
by. -/
theorem Live.execute_returns_iff_away :
    ∃ m d entered, Live {} [] m ∧ m.resolve 77 = .ok d ∧ d.action = .nested ∧
      ({ m with cursor := none }.enter 77).call d.body = .ok entered ∧
      ∀ s, Reaches none entered s → s.cursor ≠ some 8 := by
  obtain ⟨m, d, live, hresolve, haction, hbody, hpure, hsize, -, -, n, n', hrun, -, hset, hdata,
    hreturns, hcursor⟩ :=
    literal_session
  obtain ⟨entered, hcall, hiff⟩ := live.execute_returns_iff hresolve haction
    (by rw [hbody]; exact hpure) hrun
    (show (8 : Cell).toNat < m.space.size by rw [hsize]; decide)
  exact ⟨m, d, entered, live, hresolve, haction, hcall,
    hiff.mp ⟨2, n', hset, hdata, hreturns, hcursor⟩⟩

end Machine

end ThreadedForth
