import ThreadedForth.Proofs.Compilation
import ThreadedForth.Proofs.Simulation

/-!
# Invoking a token from the stack

The word that invokes the token on top of the stack takes the token off and does what the named word
does, with nothing added and nothing left behind. So a token may be executed directly or handed over
on the stack, through any number of such words, and in threaded code it may be compiled or left to a
literal. A chain of these words goes down the stack by one cell each time, so it is never longer
than the stack is deep.
-/

namespace ThreadedForth

/-- A cell that has been replaced is read back, if it could be read before. -/
theorem DataSpace.fetch_setCell {s : DataSpace} {address y : Cell} (h : s.fetch address = .ok y)
    (x : Cell) : (s.setCell address.toNat x).fetch address = .ok x := by
  obtain ⟨position, hposition, -⟩ := bind_eq_ok.mp h
  have hfound : (s.setCell address.toNat x).cellAddress address = .ok address.toNat :=
    cellAddress_toNat hposition ▸ hposition
  rw [fetch, hfound]
  exact congrArg Except.ok (Memory.getCell_setCell _ _ _)

namespace Machine

variable {m n : Machine} {config : Config} {arguments : List String} {host : HostRunner}
  {x token slot : Cell} {d executor : Definition}

/-- Put cells on the data stack one after the other. -/
def pushAll (m : Machine) (cells : List Cell) : Except Fault Machine := cells.foldlM push m

/-- Putting cells on the data stack changes nothing else. -/
theorem pushAll_eq (m : Machine) (cells : List Cell) :
    m.pushAll cells = do return { m with data := ← m.data.pushAll cells } := by
  induction cells generalizing m with
  | nil => rfl
  | cons x rest ih =>
      rw [pushAll, List.foldlM_cons, push, Stack.pushAll]
      cases m.data.push x with
      | error fault => rfl
      | ok data => exact ih { m with data := data }

/-- Putting cells and one more on the data stack puts the one more on last. -/
theorem pushAll_concat (m : Machine) (cells : List Cell) (x : Cell) :
    m.pushAll (cells ++ [x]) = m.pushAll cells >>= (·.push x) := by
  unfold pushAll
  rw [List.foldlM_append]
  congr 1
  funext n
  rw [List.foldlM_cons]
  cases n.push x with
  | error fault => rfl
  | ok pushed => rfl

/-- A cell that has been put on the data stack is taken off again, and the machine is the old
one. -/
theorem pop_of_push (h : m.push x = .ok n) : n.pop = .ok (x, m) := by
  obtain ⟨data, hpush, heq⟩ := bind_eq_ok.mp h
  cases heq
  obtain ⟨hcells, hroom⟩ := Stack.push_eq_ok.mp hpush
  have hpop : data.pop = .ok (x, m.data) := Stack.pop_eq_ok.mpr ⟨hcells, hroom⟩
  rw [pop, hpop]
  rfl

/-- Invoking a definition that invokes the token on the stack takes that token off and invokes what
it names. -/
theorem invoke_of_execute (haction : executor.action = .primitive .execute) (host : HostRunner)
    (executing : Cell) (hpop : m.pop = .ok (token, n)) (hresolve : m.resolve token = .ok d) :
    m.invoke host executing executor = n.invoke host token d := by
  obtain ⟨⟨x, data⟩, hdata, heq⟩ := bind_eq_ok.mp hpop
  cases heq
  have hentered : (m.enter executing).pop =
      .ok (token, ({ m with data := data } : Machine).enter executing) := by
    rw [pop, show (m.enter executing).data.pop = m.data.pop from rfl, hdata]
    rfl
  have hresolve' : (m.enter executing).resolve token = .ok d := hresolve
  rw [invoke_of_primitive haction]
  refine (invokeTop_eq host (m.enter executing)).trans ?_
  rw [hentered, checked, hresolve', checked]
  rfl

/-- A token that is handed over through any number of words that invoke it from the stack is invoked
on the machine that was there before. -/
theorem invoke_of_handed {executing : Cell} (hexecutor : m.resolve executing = .ok executor)
    (haction : executor.action = .primitive .execute) (hresolve : m.resolve token = .ok d)
    (host : HostRunner) (count : Nat) {pushed : Machine}
    (hpushed : m.pushAll (token :: List.replicate count executing) = .ok pushed) :
    pushed.invoke host executing executor = m.invoke host token d := by
  have hsame : ∀ {cells : List Cell} {n : Machine}, m.pushAll cells = .ok n →
      n.resolve = m.resolve := by
    intro cells n hn
    rw [pushAll_eq] at hn
    obtain ⟨data, -, heq⟩ := bind_eq_ok.mp hn
    cases heq
    rfl
  induction count generalizing pushed with
  | zero =>
      obtain ⟨first, hfirst, hpure⟩ := bind_eq_ok.mp hpushed
      cases hpure
      exact invoke_of_execute haction host executing (pop_of_push hfirst) (hsame hpushed ▸ hresolve)
  | succ count ih =>
      have hresolves := hsame hpushed
      rw [List.replicate_succ', ← List.cons_append, pushAll_concat] at hpushed
      obtain ⟨lower, hlower, hpush⟩ := bind_eq_ok.mp hpushed
      rw [invoke_of_execute haction host executing (pop_of_push hpush) (hresolves ▸ hexecutor)]
      exact ih hlower

/-- Executing a token that has been handed over is executing it directly. -/
theorem execute_of_handed {executing : Cell} (hexecutor : m.resolve executing = .ok executor)
    (haction : executor.action = .primitive .execute) (hresolve : m.resolve token = .ok d)
    {count : Nat} (hroom : count + 1 ≤ m.data.room) :
    ∃ pushed, m.pushAll (token :: List.replicate count executing) = .ok pushed ∧
      ∀ host budget, pushed.execute host budget executing = m.execute host budget token := by
  let cells := token :: List.replicate count executing
  have hlength : cells.length ≤ m.data.room := by simpa [cells] using hroom
  let pushed : Machine :=
    { m with data := ⟨cells.reverse ++ m.data.cells, m.data.room - cells.length⟩ }
  have hpushed : m.pushAll cells = .ok pushed := by
    rw [pushAll_eq, Stack.pushAll_eq, if_pos hlength]
    rfl
  refine ⟨pushed, hpushed, fun host budget => ?_⟩
  have hinvoke := invoke_of_handed hexecutor haction hresolve host count hpushed
  have hfound : pushed.resolve executing = .ok executor := hexecutor
  rw [execute_eq, execute_eq, hfound, hresolve, checked, checked, hinvoke]

/-- The code at an address leaves a token on the stack and then invokes it from there. -/
structure HandsOver (m : Machine) (slot token : Cell) : Prop where
  literal : m.space.fetch slot = .ok (UInt64.ofNat Primitive.literal.token)
  operand : m.space.fetch (slot + 8) = .ok token
  execute : m.space.fetch (slot + 16) = .ok (UInt64.ofNat Primitive.execute.token)

/-- The machine that has a token compiled at an address, and is about to come to it. -/
def withCompiled (m : Machine) (slot token : Cell) : Machine :=
  { m with space := m.space.setCell slot.toNat token, cursor := some slot }

/-- Three cells of code are two cells and one. -/
theorem behind_handsOver (slot : Cell) : slot + 8 + 8 = slot + 16 ∧ slot + 16 + 8 = slot + 24 := by
  rw [UInt64.add_assoc, UInt64.add_assoc]
  exact ⟨rfl, rfl⟩

/-- Code that hands a token over comes, in two steps, to invoking the token with the cursor behind
the code. -/
theorem HandsOver.steps (h : m.HandsOver slot token) (hwell : m.WellFormed config arguments)
    (hcursor : m.cursor = some slot) (hresolve : m.resolve token = .ok d)
    (hroom : 1 ≤ m.data.room) :
    ∃ between, ∀ host, m.step host = some (.done () between) ∧
      between.step host = { m with cursor := some (slot + 24) }.invoke host token d := by
  obtain ⟨literal, hliteral, -, hpushes⟩ := hwell.resolve_token .literal
  obtain ⟨executor, hexecutor, -, hexecutes⟩ := hwell.resolve_token .execute
  obtain ⟨hsecond, hthird⟩ := behind_handsOver slot
  let data : Stack .data := ⟨token :: m.data.cells, m.data.room - 1⟩
  have hpush : m.data.push token = .ok data := Stack.push_eq_ok.mpr ⟨rfl, Nat.sub_add_cancel hroom⟩
  let between : Machine :=
    { m with
      data := data, cursor := some (slot + 16),
      current := some (UInt64.ofNat Primitive.literal.token).toNat }
  refine ⟨between, fun host => ⟨?_, ?_⟩⟩
  · rw [step_of_literal host hcursor h.literal hliteral hpushes h.operand, hsecond]
    simp only [Effect.change, attempt, push, hpush, bind, Except.bind, pure, Except.pure]
    rfl
  · have hstep := step_eq_invoke (m := between) host rfl h.execute hexecutor
    rw [hstep, hthird]
    let behind : Machine := { between with cursor := some (slot + 24) }
    have hpop : behind.pop = .ok (token, { behind with data := m.data }) := by
      have hdata : data.pop = .ok (token, m.data) :=
        Stack.pop_eq_ok.mpr ⟨rfl, Nat.sub_add_cancel hroom⟩
      rw [pop, show behind.data = data from rfl, hdata]
      rfl
    exact (invoke_of_execute hexecutes host _ hpop hresolve).trans rfl

/-- Code that has the token itself at the last of these cells comes to the same in one step. -/
theorem HandsOver.step_withCompiled (h : m.HandsOver slot token)
    (hresolve : m.resolve token = .ok d) (host : HostRunner) :
    (m.withCompiled (slot + 16) token).step host =
      { m.withCompiled (slot + 16) token with cursor := some (slot + 24) }.invoke host token d := by
  have hfetch : (m.withCompiled (slot + 16) token).space.fetch (slot + 16) = .ok token :=
    DataSpace.fetch_setCell h.execute token
  rw [step_eq_invoke host rfl hfetch hresolve, (behind_handsOver slot).2]

/-- Calling a definition takes no notice of data space. -/
theorem invoke_withSpace (hnested : d.action = .nested) (host : HostRunner) (token : Cell)
    (space : DataSpace) :
    { m with space := space }.invoke host token d =
      (m.invoke host token d).map (·.mapMachine fun n => { n with space := space }) := by
  have hcall : ∀ n : Machine, ({ n with space := space } : Machine).call d.body =
      (n.call d.body).map fun called => { called with space := space } := by
    intro n
    unfold call
    dsimp only
    cases n.returns.push (saveCursor n.cursor) with
    | error fault => rfl
    | ok returns => rfl
  have hentered : ({ m with space := space } : Machine).enter token =
      { m.enter token with space := space } := rfl
  rw [invoke_of_nested host token hnested, invoke_of_nested host token hnested, hentered, hcall]
  cases (m.enter token).call d.body with
  | error fault => rfl
  | ok called => rfl

/-- Invoke the token on top of the data stack, with at most a given number of such invocations
inside each other. What happens beyond is up to the caller. -/
def invokeTopWithin (host : HostRunner) (beyond : Machine → Run Unit) : Nat → Machine → Run Unit
  | 0, m => beyond m
  | limit + 1, m =>
      m.checked m.pop fun popped => m.checked (m.resolve popped.1) fun d =>
        (popped.2.enter popped.1).carryOut host (invokeTopWithin host beyond limit) d

/-- Carrying out a definition asks for the token on the stack of the machine at hand only. -/
theorem carryOut_congr {first second : Machine → Run Unit} (h : first m = second m)
    (host : HostRunner) (d : Definition) : m.carryOut host first d = m.carryOut host second d := by
  unfold carryOut
  split
  · split
    · rfl
    · exact h
  · rfl
  · rfl

/-- As each invocation takes a cell off, no more of them are inside each other than there are cells,
and one that finds none. -/
theorem invokeTopWithin_eq (host : HostRunner) (beyond : Machine → Run Unit) {limit : Nat}
    (h : m.data.depth < limit) :
    invokeTopWithin host beyond limit m = invokeTop host m.data.cells m := by
  induction limit generalizing m with
  | zero => exact absurd h (Nat.not_lt_zero _)
  | succ limit ih =>
      rw [invokeTop_eq, invokeTopWithin]
      cases hpop : m.pop with
      | error fault => rfl
      | ok popped =>
          obtain ⟨top, rest⟩ := popped
          rw [checked, checked]
          cases m.resolve top with
          | error fault => rfl
          | ok d =>
              have hcells := (Machine.pop_eq_ok hpop).1
              have hdepth : (rest.enter top).data.depth < limit := by
                simp only [Stack.depth, hcells, List.length_cons] at h
                exact Nat.lt_of_succ_lt_succ h
              exact carryOut_congr (ih hdepth) host d

/-- Invoking a token from the stack is invoking it. Whatever a token names, it may be pushed, and
then the token of the word that invokes it any number of times: executing that word comes to what
executing the token on the machine from before comes to, with every budget. In threaded code, a
literal and that word come to invoking the token with the cursor behind them, as does the token
compiled in place of that word; where the token names a nested definition, the machines that are
left differ in that cell of code alone. And such words are inside each other at most as many times
as there are cells on the stack, beyond the first one. -/
theorem Live.execute_transparent (live : Live config arguments m)
    (hresolve : m.resolve token = .ok d) :
    (∀ count, count + 1 ≤ m.data.room → ∃ pushed,
      m.pushAll (token :: List.replicate count (UInt64.ofNat Primitive.execute.token)) =
        .ok pushed ∧
      ∀ host budget, pushed.execute host budget (UInt64.ofNat Primitive.execute.token) =
        m.execute host budget token) ∧
    (∀ slot, m.cursor = some slot → m.HandsOver slot token → 1 ≤ m.data.room → ∃ between, ∀ host,
      m.step host = some (.done () between) ∧
      between.step host = { m with cursor := some (slot + 24) }.invoke host token d ∧
      (m.withCompiled (slot + 16) token).step host =
        { m.withCompiled (slot + 16) token with cursor := some (slot + 24) }.invoke host token d ∧
      (d.action = .nested → (m.withCompiled (slot + 16) token).step host =
        (between.step host).map
          (·.mapMachine fun n => { n with space := m.space.setCell (slot + 16).toNat token }))) ∧
    ∀ host beyond limit (n : Machine), n.data.depth < limit →
      invokeTopWithin host beyond limit n = n.dispatch host .execute := by
  have hwell := live.wellFormed
  obtain ⟨executor, hexecutor, -, haction⟩ := hwell.resolve_token .execute
  refine ⟨fun count hroom => execute_of_handed hexecutor haction hresolve hroom, ?_, ?_⟩
  · intro slot hcursor hhands hroom
    obtain ⟨between, hsteps⟩ := hhands.steps hwell hcursor hresolve hroom
    refine ⟨between, fun host => ?_⟩
    obtain ⟨hfirst, hsecond⟩ := hsteps host
    have hdirect := hhands.step_withCompiled hresolve host
    refine ⟨hfirst, hsecond, hdirect, fun hnested => ?_⟩
    rw [hdirect, hsecond]
    exact invoke_withSpace (m := { m with cursor := some (slot + 24) }) hnested host token _
  · intro host beyond limit n hdepth
    exact invokeTopWithin_eq host beyond hdepth

/-- A definition that pushes a literal is handed over through two words that invoke it from the
stack, and in the code of another definition. -/
theorem Live.execute_transparent_handed :
    ∃ m d pushed between n, Live {} [] m ∧ m.resolve 77 = .ok d ∧ m.cursor = some 296 ∧
      m.HandsOver 296 77 ∧
      m.pushAll [77, 55, 55] = .ok pushed ∧
      pushed.execute (HostCode.run 0) 2 55 = some (.done () n) ∧
      n.data.cells = [5] ∧ n.cursor = some 296 ∧ m.step (HostCode.run 0) = some (.done () between) ∧
      between.step (HostCode.run 0) =
        { m with cursor := some 320 }.invoke (HostCode.run 0) 77 d := by
  let move : Operation := .ask (.setCursor (some 296))
  have hsession : ((Machine.boot {} [] .null {}).toOption.any fun b =>
      (b.compileColon "W" [.literal 5]).toOption.any fun w =>
        (w.2.compileColon "V" [.literal 77, .word .execute]).toOption.any fun v =>
          (move.perform 0 v.2).endsWith none fun m => m.cursor == some 296 && m.data.room == 256 &&
            (m.space.fetch 296).toOption.any (· == 52) &&
            (m.space.fetch 304).toOption.any (· == 77) &&
            (m.space.fetch 312).toOption.any (· == 55) && (m.resolve 77).toOption.any fun _ =>
            (m.execute (HostCode.run 0) 2 77).endsWith none fun n =>
            n.data.cells == [5] && n.cursor == some 296) =
      true := by decide +kernel
  obtain ⟨b, hboot, hsession⟩ := exists_ok_of_any hsession
  obtain ⟨w, hfirst, hsession⟩ := exists_ok_of_any hsession
  obtain ⟨v, hsecond, hsession⟩ := exists_ok_of_any hsession
  obtain ⟨_, m, hmove, hchecks⟩ := Run.exists_done hsession
  simp only [Bool.and_eq_true, beq_iff_eq] at hchecks
  obtain ⟨⟨⟨⟨⟨hcursor, hroom⟩, hliteral⟩, hoperand⟩, hexecute⟩, hruns⟩ := hchecks
  have hfetch : ∀ {slot x : Cell}, (m.space.fetch slot).toOption.any (· == x) = true →
      m.space.fetch slot = .ok x := by
    intro slot x hx
    obtain ⟨y, hy, hxy⟩ := exists_ok_of_any hx
    rwa [beq_iff_eq.mp hxy] at hy
  have hhands : m.HandsOver 296 77 := ⟨hfetch hliteral, hfetch hoperand, hfetch hexecute⟩
  obtain ⟨d, hresolve, hruns⟩ := exists_ok_of_any hruns
  obtain ⟨_, n, hrun, hchecks⟩ := Run.exists_done hruns
  simp only [Bool.and_eq_true, beq_iff_eq] at hchecks
  have live : Live {} [] m :=
    .perform move 0 (((Live.boot hboot).compileColon hfirst).compileColon hsecond) hmove
  obtain ⟨hhosted, hthreaded, -⟩ := live.execute_transparent hresolve
  obtain ⟨pushed, hpushed, hsame⟩ := hhosted 2 (by omega)
  obtain ⟨between, hsteps⟩ := hthreaded 296 hcursor hhands (by omega)
  obtain ⟨hstep, hinvoke, -⟩ := hsteps (HostCode.run 0)
  exact ⟨m, d, pushed, between, n, live, hresolve, hcursor, hhands, hpushed, (hsame _ _).trans hrun,
    hchecks.1, hchecks.2, hstep, hinvoke⟩

end Machine

end ThreadedForth
