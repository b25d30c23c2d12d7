import Mathlib.Data.Fin.VecNotation
import Mathlib.Data.List.Iterate
import ThreadedForth.Proofs.Countdown

/-!
# Runaway recursion

Definitions that call each other around a ring, each before it does anything else, would never
return. Every call saves a cursor, so the free room of the return stack bounds the number of calls:
executing one of them takes one step for each free cell and halts with the return stack full. What
has been saved tells the way around the ring, and nothing but the control state has changed.
-/

namespace ThreadedForth

/-- A stack that already holds as many cells as it can takes no other. -/
theorem Stack.push_holding_full {kind : StackKind} {s : Stack kind} {cells : List Cell}
    (h : cells.length = s.capacity) (x : Cell) : (s.holding cells).push x = .error s.overflow := by
  have hcapacity : (s.holding cells).capacity = s.capacity := by
    rw [capacity, ← length_toList, toList_holding, holding, h, Nat.sub_self, Nat.add_zero]
  have hroom : (s.holding cells).room = 0 := by rw [holding, h, Nat.sub_self]
  rw [push, hroom, overflow, overflow, hcapacity]

namespace Machine

variable {m n o : Machine} {stop : Option Cell} {count size : Nat} {config : Config}
  {arguments : List String}

/-- Steps that come to a halt spend one unit of the budget each, the halting one included, and a
smaller budget is not enough. -/
theorem ReachesIn.stepUntil_of_halted {reason : Halt} (h : ReachesIn stop count m n)
    (hcursor : n.cursor ≠ stop) (hhalted : ∀ host, n.step host = some (.halted reason o))
    (host : HostRunner) (budget : Nat) :
    m.stepUntil host stop budget = if count + 1 ≤ budget then some (.halted reason o)
    else none := by
  induction h generalizing budget with
  | refl n =>
      cases budget with
      | zero => rw [stepUntil, if_neg hcursor]; rfl
      | succ budget =>
          rw [stepUntil, if_neg hcursor, hhalted host, if_pos (Nat.le_add_left 1 budget)]
  | step hne hstep _ ih =>
      cases budget with
      | zero => rw [stepUntil, if_neg hne]; rfl
      | succ budget =>
          rw [stepUntil, if_neg hne, hstep host]
          simp only [ih hcursor hhalted, Nat.add_le_add_iff_right]

/-- The place after a given one on a ring of places. -/
def CallRing.next (i : Fin size) : Fin size := ⟨(i.val + 1) % size, Nat.mod_lt _ i.pos⟩

/-- Nested definitions on a ring: the body of each one starts with the token of the next, and that
of the last one with the token of the first. -/
structure CallRing (m : Machine) (token : Fin size → Cell) (body : Fin size → Nat) : Prop where
  nested (i : Fin size) : ∃ d, m.resolve (token i) = .ok d ∧ d.action = .nested ∧ d.body = body i
  calls (i : Fin size) : m.space.fetch (UInt64.ofNat (body i)) = .ok (token (CallRing.next i))

namespace CallRing

variable {token : Fin size → Cell} {body : Fin size → Nat} {cells : List Cell}

/-- The addresses behind the calls that are made one after the other, from a given place on. -/
def behindCalls (body : Fin size → Nat) (i : Fin size) (count : Nat) : List Cell :=
  (List.iterate next i count).map fun j => UInt64.ofNat (body j + 8)

/-- What executing the definition at a given place saves on a return stack with some free room: the
mark of the unset cursor, and then addresses behind calls until the room is used up. -/
def saved (body : Fin size → Nat) (i : Fin size) : Nat → List Cell
  | 0 => []
  | room + 1 => unsetMark :: behindCalls body i room

/-- As many cells are saved as there is room for. -/
theorem length_saved (body : Fin size → Nat) (i : Fin size) (room : Nat) :
    (saved body i room).length = room := by
  cases room with
  | zero => rfl
  | succ room => rw [saved, behindCalls, List.length_cons, List.length_map, List.length_iterate]

/-- A machine that has just called the definition at a given place, with given cells on its return
stack. -/
def entered (m : Machine) (token : Fin size → Cell) (body : Fin size → Nat) (cells : List Cell)
    (i : Fin size) : Machine :=
  m.withControl ⟨some (UInt64.ofNat (body i)), m.returns.holding cells, some (token i).toNat⟩

/-- Where there is room, a step calls the next definition. -/
theorem step_entered (ring : m.CallRing token body) (hroom : cells.length < m.returns.capacity)
    (i : Fin size) (host : HostRunner) :
    (entered m token body cells i).step host =
      some (.done () (entered m token body (cells ++ [UInt64.ofNat (body i + 8)]) (next i))) := by
  obtain ⟨d, hresolve, haction, hbody⟩ := ring.nested (next i)
  have hpush : (m.returns.holding cells).push (UInt64.ofNat (body i) + 8) =
      .ok (m.returns.holding (cells ++ [UInt64.ofNat (body i + 8)])) := by
    rw [UInt64.ofNat_add]
    exact Stack.push_holding hroom
  rw [step_of_call (m := entered m token body cells i) host rfl
    (ring.calls i) hresolve haction hpush, hbody]
  rfl

/-- Where there is none, the call is refused, with the cursor behind it. -/
theorem step_entered_full (ring : m.CallRing token body) (hfull : cells.length = m.returns.capacity)
    (i : Fin size) (host : HostRunner) :
    (entered m token body cells i).step host =
      some (.halted (.fault m.returns.overflow) (m.withControl
        ⟨some (UInt64.ofNat (body i) + 8), m.returns.holding cells,
          some (token (next i)).toNat⟩)) := by
  obtain ⟨d, hresolve, haction, -⟩ := ring.nested (next i)
  exact step_of_full_call (m := entered m token body cells i) host rfl
    (ring.calls i) hresolve haction
    (Stack.push_holding_full hfull _)

/-- The calls that there is room for are made one after the other around the ring. -/
theorem reachesIn_entered (ring : m.CallRing token body) (cells : List Cell) (count : Nat)
    (hroom : cells.length + count ≤ m.returns.capacity) (i : Fin size) :
    ReachesIn none count (entered m token body cells i)
      (entered m token body (cells ++ behindCalls body i count) (next^[count] i)) := by
  induction count generalizing cells i with
  | zero =>
      rw [behindCalls, List.iterate, List.map_nil, List.append_nil]
      exact .refl _
  | succ count ih =>
      have hrest := ih (cells ++ [UInt64.ofNat (body i + 8)])
        (by rw [List.length_append, List.length_singleton]; omega) (next i)
      rw [List.append_assoc] at hrest
      exact .step (Option.some_ne_none _) (ring.step_entered (by omega) i) hrest

/-- Compiled definitions of which each one starts with a call of the next are on a ring. -/
theorem of_inPlace (hwell : m.WellFormed config arguments) (colon : Fin size → Colon)
    (hplace : ∀ i, (colon i).InPlace m)
    (hcalls : ∀ i, ∃ rest, (colon i).items = .call (colon (next i)).token :: rest) :
    m.CallRing (fun i => UInt64.ofNat (colon i).token) fun i => (colon i).address where
  nested i := by
    obtain ⟨d, hresolve, haction, hbody, -⟩ := hplace i
    exact ⟨d, hresolve, haction, hbody⟩
  calls i := by
    obtain ⟨-, -, -, -, hcode⟩ := hplace i
    obtain ⟨rest, hitems⟩ := hcalls i
    rw [Colon.code, hitems] at hcode
    exact hcode.fetch (Nat.le_of_lt hwell.here_lt_size) (hwell.space_size ▸ hwell.valid.dataSpace.2)

/-- On a full return stack, executing a definition of the ring is refused at once. -/
theorem execute_full (ring : m.CallRing token body) (hroom : m.returns.room = 0) (i : Fin size)
    (host : HostRunner) (budget : Nat) :
    m.execute host budget (token i) =
      some (.halted (.fault m.returns.overflow) (m.enter (token i))) := by
  obtain ⟨d, hresolve, haction, -⟩ := ring.nested i
  have hpush : m.returns.push (saveCursor m.cursor) = .error m.returns.overflow := by
    rw [Stack.push, hroom]
  have hinvoke : m.invoke host (token i) d =
      some (.halted (.fault m.returns.overflow) (m.enter (token i))) := by
    rw [invoke_of_nested host (token i) haction]
    simp only [call, enter, hpush, bind, Except.bind]
    rfl
  rw [execute, hresolve]
  dsimp only
  rw [hinvoke]

/-- With room on the return stack, executing a definition of the ring from an unset cursor saves the
mark, calls the definition, and goes around the ring until the room is used up. -/
theorem execute_eq (ring : m.CallRing token body) (hcursor : m.cursor = none) {room : Nat}
    (hroom : m.returns.room = room + 1) (i : Fin size) (host : HostRunner) (budget : Nat) :
    m.execute host budget (token i) =
      if room + 1 ≤ budget then
        some (.halted (.fault m.returns.overflow) (m.withControl
          ⟨some (UInt64.ofNat (body (next^[room] i)) + 8),
            m.returns.holding (m.returns.toList ++ saved body i (room + 1)),
            some (token (next (next^[room] i))).toNat⟩))
      else none := by
  obtain ⟨d, hresolve, haction, hbody⟩ := ring.nested i
  have hcapacity : m.returns.capacity = m.returns.toList.length + (room + 1) := by
    rw [Stack.length_toList, Stack.capacity, hroom]
  have hpush : m.returns.push (saveCursor m.cursor) =
      .ok (m.returns.holding (m.returns.toList ++ [unsetMark])) := by
    have hpushed : (m.returns.holding m.returns.toList).push unsetMark =
        .ok (m.returns.holding (m.returns.toList ++ [unsetMark])) := Stack.push_holding (by omega)
    rw [Stack.holding_toList] at hpushed
    rw [hcursor]
    exact hpushed
  have hentered : m.execute host budget (token i) =
      (entered m token body (m.returns.toList ++ [unsetMark]) i).stepUntil host none budget := by
    rw [execute_of_nested host budget hresolve haction hpush, hcursor, hbody]
    rfl
  have hreaches := ring.reachesIn_entered (m.returns.toList ++ [unsetMark]) room
    (by rw [List.length_append, List.length_singleton]; omega) i
  have hcells : m.returns.toList ++ [unsetMark] ++ behindCalls body i room =
      m.returns.toList ++ saved body i (room + 1) :=
    List.append_assoc _ _ _
  rw [hcells] at hreaches
  have hfull : (m.returns.toList ++ saved body i (room + 1)).length = m.returns.capacity := by
    rw [List.length_append, length_saved, hcapacity]
  rw [hentered]
  exact hreaches.stepUntil_of_halted (Option.some_ne_none _)
    (ring.step_entered_full hfull _) host budget

end CallRing

/-- Runaway recursion is caught in every live session. Executing a definition on a ring of any size,
from an unset cursor, halts because the return stack is full; it takes one step for each cell that
was free, so a budget of that many steps is enough and no smaller one is. The return stack then
holds what it held, and above it, if there was room, the mark of the unset cursor and the addresses
behind the calls in the order of the ring. Nothing else but the cursor and the current word is
different. -/
theorem Live.ring_overflows (live : Live config arguments m) (hcursor : m.cursor = none)
    {token : Fin size → Cell} {body : Fin size → Nat} (ring : m.CallRing token body)
    (i : Fin size) :
    ∃ n, (∀ host budget, m.execute host budget (token i) =
        if config.returnStack - m.returns.toList.length ≤ budget then
          some (.halted (.fault (.stackOverflow .returns config.returnStack)) n)
        else none) ∧
      n.returns.toList =
        m.returns.toList ++ CallRing.saved body i (config.returnStack - m.returns.toList.length) ∧
      n.returns.toList.length = config.returnStack ∧
      n = { m with returns := n.returns, cursor := n.cursor, current := n.current } := by
  have hcapacity : m.returns.capacity = config.returnStack := live.wellFormed.returns_capacity
  have hfree : config.returnStack - m.returns.toList.length = m.returns.room := by
    rw [← hcapacity, Stack.length_toList, Stack.capacity, Nat.add_sub_cancel_left]
  have hlength : (m.returns.toList ++ CallRing.saved body i m.returns.room).length =
      config.returnStack := by
    rw [List.length_append, CallRing.length_saved, Stack.length_toList, ← hcapacity, Stack.capacity]
  have hfault : m.returns.overflow = .stackOverflow .returns config.returnStack := by
    rw [Stack.overflow, hcapacity]
  rw [hfree]
  cases hroom : m.returns.room with
  | zero =>
      rw [hroom] at hlength
      refine ⟨m.enter (token i), fun host budget => ?_, (List.append_nil _).symm, ?_, rfl⟩
      · rw [ring.execute_full hroom, if_pos (Nat.zero_le budget), hfault]
      · rwa [CallRing.saved, List.append_nil] at hlength
  | succ room =>
      rw [hroom] at hlength
      have hexecute := ring.execute_eq hcursor hroom i
      rw [hfault] at hexecute
      refine ⟨_, hexecute, Stack.toList_holding _ _, ?_, rfl⟩
      exact (congrArg List.length (Stack.toList_holding _ _)).trans hlength

/-- Two definitions that call each other, with a cell on a return stack of four: executing the
second one halts at the third step, behind the call in the first one. -/
theorem Live.ring_overflows_pair :
    ∃ m n, Live { returnStack := 4 } [] m ∧ m.cursor = none ∧ m.returns.toList = [9] ∧
      m.CallRing ![77, 78] ![272, 288] ∧ m.execute (HostCode.run 0) 2 78 = none ∧
      m.execute (HostCode.run 0) 3 78 = some (.halted (.fault (.stackOverflow .returns 4)) n) ∧
      n.returns.toList = [9, unsetMark, 296, 280] ∧ n.data = m.data ∧ n.space = m.space := by
  have hsession : afterItems { returnStack := 4 } [.literal 9, .word .toR] (fun k =>
      (k.compileColon "PING" [.call 78]).toOption.any fun ping =>
        (ping.2.compileColon "PONG" [.call 77]).toOption.any fun pong =>
          ping.1 == 77 && pong.1 == 78 && alignUp k.space.here == 272 &&
          alignUp ping.2.space.here == 288 &&
            pong.2.cursor == none && pong.2.returns.toList == [9]) = true := by decide +kernel
  obtain ⟨k, klive, hcompile⟩ := live_of_afterItems hsession
  obtain ⟨⟨first, ping⟩, hfirst, hcompile⟩ := exists_ok_of_any hcompile
  obtain ⟨⟨second, m⟩, hsecond, hchecks⟩ := exists_ok_of_any hcompile
  simp only [Bool.and_eq_true, beq_iff_eq] at hchecks
  obtain ⟨⟨⟨⟨⟨rfl, rfl⟩, hping⟩, hpong⟩, hcursor⟩, hreturns⟩ := hchecks
  have plive : Live { returnStack := 4 } [] ping := klive.compileColon hfirst
  have live : Live { returnStack := 4 } [] m := plive.compileColon hsecond
  obtain ⟨hfirst', -⟩ := inPlace_of_compileColon klive.wellFormed hfirst
  obtain ⟨hsecond', hearlier⟩ := inPlace_of_compileColon plive.wellFormed hsecond
  rw [hping] at hfirst'
  rw [hpong] at hsecond'
  have hring := CallRing.of_inPlace live.wellFormed ![⟨77, 272, [.call 78]⟩, ⟨78, 288, [.call 77]⟩]
    (Fin.forall_fin_two.mpr ⟨hearlier _ hfirst', hsecond'⟩)
      (Fin.forall_fin_two.mpr ⟨⟨[], rfl⟩, ⟨[], rfl⟩⟩)
  have ring : m.CallRing ![77, 78] ![272, 288] :=
    ⟨Fin.forall_fin_two.mpr ⟨hring.nested 0, hring.nested 1⟩,
      Fin.forall_fin_two.mpr ⟨hring.calls 0, hring.calls 1⟩⟩
  obtain ⟨n, hexecute, hsaved, -, hrest⟩ := live.ring_overflows hcursor ring 1
  rw [hreturns] at hexecute hsaved
  refine ⟨m, n, live, hcursor, hreturns, ring, hexecute _ _, hexecute _ _, hsaved, ?_, ?_⟩
  · rw [hrest]
  · rw [hrest]

end Machine

end ThreadedForth
