import ThreadedForth.Proofs.Building
import ThreadedForth.Proofs.Invocation

/-!
# Words that compute

Most words of arithmetic and logic put a function of the top cell, or of the two top cells, in their
place. Such a word succeeds exactly when its operands are there, and changes nothing else. So a
postfix expression, written out of literals and such words, leaves one cell on the stack as it was,
given room for the cells that are pending at any time.
-/

namespace ThreadedForth

namespace Stack

variable {kind : StackKind} {s t : Stack kind} {below operands : List Cell}

/-- Pushing a list of one cell pushes that cell. -/
theorem pushAll_singleton (s : Stack kind) (x : Cell) : s.pushAll [x] = s.push x := by
  rw [pushAll]
  cases s.push x <;> rfl

/-- A result is put in the place of one operand or more. -/
theorem push_below (h : s.toList = below ++ operands) (hoperands : 1 ≤ operands.length) (x : Cell) :
    (s.holding below).push x = .ok (s.holding (below ++ [x])) := by
  rw [← pushAll_singleton]
  exact pushAll_below h (Nat.le_trans hoperands (Nat.le_add_left _ _))

/-- A function of the top cell is put in its place exactly when there is such a cell. -/
theorem unary_eq_ok {f : Cell → Cell} :
    s.unary f = .ok t ↔ ∃ below x, s.toList = below ++ [x] ∧ t = s.holding (below ++ [f x]) := by
  have hunary : ∀ {below x}, s.toList = below ++ [x] →
      s.unary f = .ok (s.holding (below ++ [f x])) := by
    intro below x hs
    rw [unary, pop_of_toList hs]
    exact push_below hs (Nat.le_refl 1) (f x)
  constructor
  · intro ht
    obtain ⟨_ | ⟨x, rest⟩, room⟩ := s
    · cases ht
    · have hs : (⟨x :: rest, room⟩ : Stack kind).toList = rest.reverse ++ [x] := List.reverse_cons
      exact ⟨_, _, hs, Except.ok.inj (ht.symm.trans (hunary hs))⟩
  · rintro ⟨below, x, hs, rfl⟩
    exact hunary hs

/-- A function of the two top cells is put in their place exactly when there are such cells. -/
theorem binary_eq_ok {f : Cell → Cell → Cell} :
    s.binary f = .ok t ↔
    ∃ below x y, s.toList = below ++ [x, y] ∧ t = s.holding (below ++ [f x y]) := by
  have hbinary : ∀ {below x y}, s.toList = below ++ [x, y] →
      s.binary f = .ok (s.holding (below ++ [f x y])) := by
    intro below x y hs
    rw [binary, popPair_of_toList hs]
    exact push_below hs (Nat.le_succ 1) (f x y)
  constructor
  · intro ht
    obtain ⟨_ | ⟨y, _ | ⟨x, rest⟩⟩, room⟩ := s
    · cases ht
    · cases ht
    · have hs : (⟨y :: x :: rest, room⟩ : Stack kind).toList = rest.reverse ++ [x, y] := by
        simp [toList]
      exact ⟨_, _, _, hs, Except.ok.inj (ht.symm.trans (hbinary hs))⟩
  · rintro ⟨below, x, y, hs, rfl⟩
    exact hbinary hs

end Stack

namespace Machine

variable {m n : Machine} {p : Primitive}

/-- Invoking a primitive comes to one outcome. -/
theorem Invokes.unique {outcome other : Outcome Unit} (h : m.Invokes p outcome)
    (hother : m.Invokes p other) : outcome = other :=
  Option.some.inj ((h.execute (HostCode.run 0) 0).symm.trans (hother.execute (HostCode.run 0) 0))

/-- A word that is a change of the machine succeeds exactly when the change is not refused. -/
theorem Knows.invokes_done_iff {change : Machine → Except Fault Machine} (h : m.Knows p)
    (heffect : p.effect? = some (Effect.change change)) :
    m.Invokes p (.done () n) ↔ change { m with current := some p.token } = .ok n := by
  constructor
  · intro hinvokes
    exact attempt_eq_done.mp ((h.invokes heffect).unique hinvokes)
  · exact h.invokes_done heffect

/-- A word that is a change of the machine halts for the fault with which the change is refused. -/
theorem Knows.exists_fault_of_halted {change : Machine → Except Fault Machine} {reason : Halt}
    (h : m.Knows p) (heffect : p.effect? = some (Effect.change change))
    (hhalted : m.Invokes p (.halted reason n)) :
    ∃ fault, reason = .fault fault ∧ change { m with current := some p.token } = .error fault := by
  have houtcome := (h.invokes heffect).unique hhalted
  rw [Effect.change] at houtcome
  cases hchange : change { m with current := some p.token } with
  | ok changed =>
      rw [hchange] at houtcome
      cases houtcome
  | error fault =>
      rw [hchange] at houtcome
      cases houtcome
      exact ⟨fault, rfl, rfl⟩

/-- A word on the data stack succeeds exactly when its change of the stack is not refused. -/
theorem Knows.invokes_data_iff {f : Stack .data → Except Fault (Stack .data)} (h : m.Knows p)
    (heffect : p.effect? = some (Effect.onData f)) :
    m.Invokes p (.done () n) ↔
      ∃ data, f m.data = .ok data ∧ n = { m with data := data, current := some p.token } := by
  rw [h.invokes_done_iff heffect, bind_eq_ok]
  constructor
  · rintro ⟨data, hdata, hn⟩
    exact ⟨data, hdata, (Except.ok.inj hn).symm⟩
  · rintro ⟨data, hdata, rfl⟩
    exact ⟨data, hdata, rfl⟩

/-- A primitive succeeds exactly on a stack with a cell, and then does nothing but put a function of
the top cell in its place. -/
def Maps (m : Machine) (p : Primitive) (f : Cell → Cell) : Prop :=
  ∀ n, m.Invokes p (.done () n) ↔
    ∃ below x, m.data.toList = below ++ [x] ∧
      n = { m with data := m.data.holding (below ++ [f x]), current := some p.token }

/-- A primitive succeeds exactly on a stack with two cells, and then does nothing but put a function
of the two top cells in their place. -/
def Combines (m : Machine) (p : Primitive) (f : Cell → Cell → Cell) : Prop :=
  ∀ n, m.Invokes p (.done () n) ↔
    ∃ below x y, m.data.toList = below ++ [x, y] ∧
      n = { m with data := m.data.holding (below ++ [f x y]), current := some p.token }

/-- A word given by a function of one cell maps the top cell. -/
theorem Knows.maps {f : Cell → Cell} (h : m.Knows p)
    (heffect : p.effect? = some (Effect.onData (Stack.unary f))) : m.Maps p f := by
  intro n
  rw [h.invokes_data_iff heffect]
  constructor
  · rintro ⟨data, hdata, rfl⟩
    obtain ⟨below, x, hs, rfl⟩ := Stack.unary_eq_ok.mp hdata
    exact ⟨below, x, hs, rfl⟩
  · rintro ⟨below, x, hs, rfl⟩
    exact ⟨_, Stack.unary_eq_ok.mpr ⟨below, x, hs, rfl⟩, rfl⟩

/-- A word given by a function of two cells combines the two top cells. -/
theorem Knows.combines {f : Cell → Cell → Cell} (h : m.Knows p)
    (heffect : p.effect? = some (Effect.onData (Stack.binary f))) : m.Combines p f := by
  intro n
  rw [h.invokes_data_iff heffect]
  constructor
  · rintro ⟨data, hdata, rfl⟩
    obtain ⟨below, x, y, hs, rfl⟩ := Stack.binary_eq_ok.mp hdata
    exact ⟨below, x, y, hs, rfl⟩
  · rintro ⟨below, x, y, hs, rfl⟩
    exact ⟨_, Stack.binary_eq_ok.mpr ⟨below, x, y, hs, rfl⟩, rfl⟩

/-- The machine with one more cell on the data stack. -/
def withTop (m : Machine) (x : Cell) : Machine :=
  { m with data := m.data.holding (m.data.toList ++ [x]) }

/-- The cell is on top of those that were there before. -/
@[simp]
theorem toList_withTop (m : Machine) (x : Cell) :
    (m.withTop x).data.toList = m.data.toList ++ [x] :=
  Stack.toList_holding m.data _

/-- The cell takes up some room. -/
@[simp]
theorem room_withTop (m : Machine) (x : Cell) : (m.withTop x).data.room = m.data.room - 1 := by
  rw [withTop, Stack.holding_concat]

/-- A cell for which there was room does not change what the stack can be made to hold. -/
theorem holding_withTop (h : 1 ≤ m.data.room) (x : Cell) (cells : List Cell) :
    (m.withTop x).data.holding cells = m.data.holding cells := by
  refine Stack.holding_holding ?_ cells
  rw [List.length_append, Stack.length_toList, List.length_singleton, Stack.capacity]
  omega

end Machine

namespace Item

open Machine

variable {host : HostRunner} {budget : Nat}

/-- A word of one operand leaves a function of the cell that the items before it leave. -/
theorem Leads.map {m : Machine} {items : List Item} {x : Cell} {p : Primitive} {f : Cell → Cell}
    (h : Leads host budget items m (m.withTop x)) (hknows : m.Knows p) (hroom : 1 ≤ m.data.room)
    (heffect : p.effect? = some (Effect.onData (Stack.unary f))) :
    Leads host budget (items ++ [.word p]) m (m.withTop (f x)) := by
  obtain ⟨current, hitems⟩ := h
  refine ⟨some p.token, ?_⟩
  have hmaps := Knows.maps (m := { m.withTop x with current := current }) hknows heffect
  have hword := (hmaps _).mpr ⟨m.data.toList, x, m.toList_withTop x, rfl⟩
  rw [performAll_append host budget [.word p] hitems, performAll_word host budget [] hword]
  dsimp only
  rw [holding_withTop hroom]
  rfl

/-- Items that leave a cell on the stack of every machine with room for the cells that are pending
at any time. -/
structure Yields (host : HostRunner) (budget : Nat) (items : List Item) (height : Nat) (x : Cell) :
    Prop where
  height_pos : 1 ≤ height
  leads (m : Machine) : (∀ p, m.Knows p) → height ≤ m.data.room →
    Leads host budget items m (m.withTop x)

/-- A literal leaves itself. -/
theorem yields_literal (x : Cell) : Yields host budget [.literal x] 1 x := by
  refine ⟨Nat.le_refl 1, fun m _ hroom => ?_⟩
  refine ⟨m.current, (performAll_literals host budget []
    (show [x].length ≤ m.data.room from hroom)).trans ?_⟩
  rw [withTop, Stack.holding_concat]
  rfl

variable {left right : List Item} {height other : Nat} {x y : Cell} {p : Primitive}

/-- A word of one operand after an expression for it yields the image of its value. -/
theorem Yields.map {f : Cell → Cell} (hx : Yields host budget left height x)
    (heffect : p.effect? = some (Effect.onData (Stack.unary f))) :
    Yields host budget (left ++ [.word p]) height (f x) :=
  ⟨hx.height_pos, fun m hknows hroom =>
    (hx.leads m hknows hroom).map (hknows p) (Nat.le_trans hx.height_pos hroom) heffect⟩

/-- A word of two operands after expressions for them yields the combination of their values. While
the second is worked out, the first is pending. -/
theorem Yields.combine {f : Cell → Cell → Cell} (hx : Yields host budget left height x)
    (hy : Yields host budget right other y)
    (heffect : p.effect? = some (Effect.onData (Stack.binary f))) :
    Yields host budget (left ++ right ++ [.word p]) (max height (other + 1)) (f x y) := by
  refine ⟨Nat.le_trans hx.height_pos (Nat.le_max_left _ _),
    fun m hknows hroom => ⟨some p.token, ?_⟩⟩
  obtain ⟨hfirst, hsecond⟩ := Nat.max_le.mp hroom
  have hpending : other ≤ (m.withTop x).data.room := by
    rw [room_withTop]
    exact Nat.le_sub_one_of_lt hsecond
  obtain ⟨current, hleft⟩ := hx.leads m hknows hfirst
  obtain ⟨current', hright⟩ := hy.leads { m.withTop x with current := current } hknows hpending
  have hcombines :=
    Knows.combines (m := { (m.withTop x).withTop y with current := current' }) (hknows p) heffect
  have hword := (hcombines _).mpr ⟨m.data.toList, x, y, by simp, rfl⟩
  rw [List.append_assoc, performAll_append host budget _ hleft,
    performAll_append host budget _ hright]
  refine (performAll_word host budget [] hword).trans ?_
  dsimp only
  rw [holding_withTop (Nat.le_trans hy.height_pos hpending),
    holding_withTop (Nat.le_trans hx.height_pos hfirst)]
  rfl

end Item

end ThreadedForth
