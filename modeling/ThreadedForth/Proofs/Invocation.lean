import ThreadedForth.Proofs.Bare
import ThreadedForth.Proofs.CountedString

/-!
# Invoking primitives

A primitive is invoked when the host executes its token, and when a step finds the token in the cell
before the cursor. Either way its effect is carried out on the machine, with the primitive as the
current word, and that is all. The effect of a word on the data stack is in turn determined by what
the word does with the stack.
-/

namespace ThreadedForth

namespace Stack

variable {kind : StackKind}

/-- The stack of the same capacity that holds the given cells, bottom first. -/
def holding (s : Stack kind) (cells : List Cell) : Stack kind :=
  ⟨cells.reverse, s.capacity - cells.length⟩

/-- The cells that a stack is made to hold are the cells it holds. -/
@[simp]
theorem toList_holding (s : Stack kind) (cells : List Cell) : (s.holding cells).toList = cells :=
  List.reverse_reverse cells

/-- A stack has as many cells as are listed from its bottom. -/
@[simp]
theorem length_toList (s : Stack kind) : s.toList.length = s.depth := List.length_reverse

/-- The cells of a stack, top first, are the listed ones in reverse. -/
theorem cells_eq (s : Stack kind) : s.cells = s.toList.reverse :=
  (List.reverse_reverse s.cells).symm

/-- A stack holds its own cells. -/
@[simp]
theorem holding_toList (s : Stack kind) : s.holding s.toList = s := by
  refine eq_of_cells s.cells_eq.symm ?_
  simp [holding, capacity]

/-- One more cell on top takes up some room. -/
theorem holding_concat (s : Stack kind) (x : Cell) :
    s.holding (s.toList ++ [x]) = ⟨x :: s.cells, s.room - 1⟩ := by
  refine eq_of_cells ?_ ?_
  · rw [holding, List.reverse_concat, ← cells_eq]
  · simp only [holding, capacity, List.length_append, length_toList, List.length_singleton]
    omega

/-- Other cells of the same number leave the same room. -/
theorem holding_of_length {s : Stack kind} {cells : List Cell} (h : cells.length = s.depth) :
    s.holding cells = ⟨cells.reverse, s.room⟩ := by
  rw [holding, h, capacity, Nat.add_sub_cancel_left]

/-- What a stack held before does not matter to what it is made to hold. -/
theorem holding_holding {s : Stack kind} {cells : List Cell} (h : cells.length ≤ s.capacity)
    (others : List Cell) : (s.holding cells).holding others = s.holding others := by
  have hcapacity : (s.holding cells).capacity = s.capacity := by
    rw [capacity, ← length_toList, toList_holding, holding, Nat.add_sub_cancel' h]
  rw [holding, hcapacity, holding]

section Operands

variable {s : Stack kind} {below operands results : List Cell} {x y z : Cell}

/-- The cells of a stack that are listed last come first. -/
theorem cells_of_toList (h : s.toList = below ++ operands) :
    s.cells = operands.reverse ++ below.reverse := by
  rw [cells_eq, h, List.reverse_append]

/-- The cells below some operands leave the room that the operands took up. -/
theorem holding_below (h : s.toList = below ++ operands) :
    s.holding below = ⟨below.reverse, s.room + operands.length⟩ := by
  have hdepth : s.depth = below.length + operands.length := by
    rw [← length_toList, h, List.length_append]
  rw [holding, capacity, hdepth, Nat.add_assoc, Nat.add_sub_cancel_left, Nat.add_comm]

/-- The top cell can be taken. -/
theorem pop_of_toList (h : s.toList = below ++ [x]) : s.pop = .ok (x, s.holding below) := by
  rw [pop, cells_of_toList h, holding_below h]
  rfl

/-- The two top cells can be taken. -/
theorem popPair_of_toList (h : s.toList = below ++ [x, y]) :
    s.popPair = .ok (x, y, s.holding below) := by
  rw [popPair, cells_of_toList h, holding_below h]
  rfl

/-- The three top cells can be taken. -/
theorem popTriple_of_toList (h : s.toList = below ++ [x, y, z]) :
    s.popTriple = .ok (x, y, z, s.holding below) := by
  rw [popTriple, cells_of_toList h, holding_below h]
  rfl

/-- Results that fit where operands were taken are put on the cells below. -/
theorem pushAll_below (h : s.toList = below ++ operands)
    (hfit : results.length ≤ s.room + operands.length) :
    (s.holding below).pushAll results = .ok (s.holding (below ++ results)) := by
  rw [holding_below h, pushAll_eq, if_pos hfit, holding, List.reverse_append, List.length_append,
    Nat.sub_add_eq]
  rw [show s.capacity - below.length = _ from congrArg Stack.room (holding_below h)]

end Operands

/-- One cell cannot be taken from an empty stack. -/
theorem pop_short {s : Stack kind} (h : s.depth < 1) : s.pop = .error (s.underflow 1) := by
  obtain ⟨_ | ⟨x, rest⟩, room⟩ := s
  · rfl
  · cases Nat.lt_of_succ_lt_succ h

/-- Two cells cannot be taken from fewer. -/
theorem popPair_short {s : Stack kind} (h : s.depth < 2) : s.popPair = .error (s.underflow 2) := by
  obtain ⟨_ | ⟨y, _ | ⟨x, rest⟩⟩, room⟩ := s
  · rfl
  · rfl
  · cases Nat.lt_of_succ_lt_succ (Nat.lt_of_succ_lt_succ h)

/-- Three cells cannot be taken from fewer. -/
theorem popTriple_short {s : Stack kind} (h : s.depth < 3) :
    s.popTriple = .error (s.underflow 3) := by
  obtain ⟨_ | ⟨z, _ | ⟨y, _ | ⟨x, rest⟩⟩⟩, room⟩ := s
  · rfl
  · rfl
  · rfl
  · cases Nat.lt_of_succ_lt_succ (Nat.lt_of_succ_lt_succ (Nat.lt_of_succ_lt_succ h))

end Stack

namespace Machine

variable {m : Machine} {p : Primitive} {effect : Effect}

/-- The outcome that a primitive comes to when it is invoked on a machine: by the host that executes
its token, and by a step that finds the token in the cell before the cursor. -/
structure Invokes (m : Machine) (p : Primitive) (outcome : Outcome Unit) : Prop where
  execute (host : HostRunner) (budget : Nat) : m.execute host budget (UInt64.ofNat p.token) =
    some outcome
  step (host : HostRunner) {before : Machine} {slot : Cell} : before.cursor = some slot →
    before.space.fetch slot = .ok (UInt64.ofNat p.token) →
    m = { before with cursor := some (slot + 8) } →
    before.step host = some outcome

/-- The machine on which a primitive acts has it as the current word. -/
theorem enter_token (m : Machine) (p : Primitive) :
    m.enter (UInt64.ofNat p.token) = { m with current := some p.token } := by
  rw [enter, p.toNat_token]

/-- Invoking a primitive carries out its effect. -/
theorem Knows.invokes (h : m.Knows p) (heffect : p.effect? = some effect) :
    m.Invokes p (effect { m with current := some p.token }) := by
  obtain ⟨d, hd, haction⟩ := h
  constructor
  · intro host budget
    have hinvoke : m.invoke host (UInt64.ofNat p.token) d =
        some (effect { m with current := some p.token }) := by
      rw [invoke_of_primitive haction, enter_token, dispatch, heffect]
    rw [execute_eq_invoke host budget hd, hinvoke]
    intro outcome houtcome
    cases hinvoke.symm.trans houtcome
    exact Primitive.effect_stays heffect { m with current := some p.token }
  · intro host before slot hcursor hfetch hm
    subst hm
    have hstep :=
      step_of_primitive host hcursor hfetch (show before.resolve _ = .ok d from hd) haction heffect
    rwa [enter_token] at hstep

/-- A change that happens is what invoking its word comes to. -/
theorem Knows.invokes_done {change : Machine → Except Fault Machine} {n : Machine} (h : m.Knows p)
    (heffect : p.effect? = some (Effect.change change))
    (hn : change { m with current := some p.token } = .ok n) : m.Invokes p (.done () n) := by
  have hinvokes := h.invokes heffect
  rwa [Effect.change, hn] at hinvokes

/-- A change that is refused leaves the machine as it was, with the word as the current one. -/
theorem Knows.invokes_refused {change : Machine → Except Fault Machine} {fault : Fault}
    (h : m.Knows p) (heffect : p.effect? = some (Effect.change change))
    (hfault : change { m with current := some p.token } = .error fault) :
    m.Invokes p (.halted (.fault fault) { m with current := some p.token }) := by
  have hinvokes := h.invokes heffect
  rwa [Effect.change, hfault] at hinvokes

/-- A word on the data stack leaves the stack that it gives. -/
theorem Knows.invokes_data {f : Stack .data → Except Fault (Stack .data)} {data : Stack .data}
    (h : m.Knows p) (heffect : p.effect? = some (Effect.onData f)) (hf : f m.data = .ok data) :
    m.Invokes p (.done () { m with data := data, current := some p.token }) := by
  refine h.invokes_done heffect ?_
  dsimp only
  rw [hf]
  rfl

/-- A word on the data stack that is refused leaves the stack as it was. -/
theorem Knows.invokes_data_refused {f : Stack .data → Except Fault (Stack .data)} {fault : Fault}
    (h : m.Knows p) (heffect : p.effect? = some (Effect.onData f)) (hf : f m.data = .error fault) :
    m.Invokes p (.halted (.fault fault) { m with current := some p.token }) := by
  refine h.invokes_refused heffect ?_
  dsimp only
  rw [hf]
  rfl

end Machine

namespace Item

variable {m n : Machine} {p : Primitive} (host : HostRunner) (budget : Nat) (rest : List Item)

/-- After a word that succeeds the host goes on. -/
theorem performAll_word (h : m.Invokes p (.done () n)) :
    performAll host budget (.word p :: rest) m = performAll host budget rest n := by
  rw [performAll, show Item.perform host budget (.word p) m = _ from h.execute host budget]

/-- A word that halts ends what the host does. -/
theorem performAll_halted {reason : Halt} (h : m.Invokes p (.halted reason n)) :
    performAll host budget (.word p :: rest) m = some (.halted reason n) := by
  rw [performAll, show Item.perform host budget (.word p) m = _ from h.execute host budget]

/-- After items that succeed the host goes on with the others. -/
theorem performAll_append {items : List Item}
    (h : performAll host budget items m = some (.done () n)) :
    performAll host budget (items ++ rest) m = performAll host budget rest n := by
  induction items generalizing m with
  | nil => cases h; rfl
  | cons item items ih =>
      rw [performAll] at h
      rw [List.cons_append, performAll]
      split at h
      · exact ih h
      · next hstopped => exact absurd h (hstopped n)

/-- The host goes through items with success, and leaves a given machine apart from the current
word. -/
def Leads (items : List Item) (m n : Machine) : Prop :=
  ∃ current, performAll host budget items m = some (.done () { n with current := current })

variable {host budget} {items others : List Item} {o : Machine}

/-- What items lead to is determined apart from the current word. -/
theorem Leads.iff (h : Leads host budget items m n) :
    Leads host budget items m o ↔ { n with current := none } = { o with current := none } := by
  obtain ⟨current, hn⟩ := h
  constructor
  · rintro ⟨current', ho⟩
    rw [hn] at ho
    exact congrArg (fun k : Machine => { k with current := none })
      (Outcome.done.inj (Option.some.inj ho)).2
  · intro heq
    have hsame := congrArg (fun k : Machine => { k with current := current }) heq
    exact ⟨current, hn.trans (congrArg (fun k => some (Outcome.done () k)) hsame)⟩

/-- Items that lead to one machine lead to the same ones. -/
theorem Leads.congr (h : Leads host budget items m n) (hothers : Leads host budget others m n) :
    Leads host budget items m o ↔ Leads host budget others m o :=
  h.iff.trans hothers.iff.symm

/-- Items that halt lead nowhere. -/
theorem not_leads {reason : Halt} (h : performAll host budget items m = some (.halted reason o)) :
    ¬ Leads host budget items m n := by
  rintro ⟨current, hn⟩
  rw [h] at hn
  cases hn

end Item

namespace Machine

/-- A session that starts without arguments, and in which the host then goes through items, ends up
as a check demands. -/
def afterItems (config : Config) (items : List Item) (check : Machine → Bool) : Bool :=
  (Machine.boot config [] .null {}).toOption.any fun m =>
    (Item.performAll (HostCode.run 0) 0 items m).endsWith none check

/-- What passes the check after such a session is live. -/
theorem live_of_afterItems {config : Config} {items : List Item} {check : Machine → Bool}
    (h : afterItems config items check = true) : ∃ m, Live config [] m ∧ check m = true := by
  obtain ⟨k, hk, h⟩ := exists_ok_of_any h
  obtain ⟨_, m, hm, h⟩ := Run.exists_done h
  exact ⟨m, (Live.boot hk).performAll hm, h⟩

end Machine

end ThreadedForth
