import Mathlib.Data.List.Rotate
import ThreadedForth.Proofs.Invocation

/-!
# Words that index the stack

An index counts cells from the top of the stack, below the index itself. Copying the indexed cell
and bringing it to the top are refused exactly when there is no such cell, however large the index
is. Bringing a cell to the top turns the block that it starts by one place and leaves everything
below that block alone, so doing it as often as the block is long brings the stack back. The words
that copy, exchange and rotate the first few cells are the cases of small indices.
-/

namespace ThreadedForth

namespace Stack

variable {kind : StackKind} {u x : Cell} {below above : List Cell} {room : Nat}

/-- An index below the depth names a cell, with as many cells above it. -/
theorem exists_indexed {s : Stack kind} {index : Nat} (h : index < s.depth) :
    ∃ below x above, s.toList = below ++ x :: above ∧ above.length = index := by
  have hlength := s.length_toList
  have hplace : s.depth - 1 - index < s.toList.length := by omega
  refine ⟨s.toList.take (s.depth - 1 - index), s.toList.get ⟨_, hplace⟩,
    s.toList.drop (s.depth - 1 - index + 1), ?_, ?_⟩
  · rw [List.get_eq_getElem, ← List.drop_eq_getElem_cons hplace, List.take_append_drop]
  · rw [List.length_drop]
    omega

/-- Bringing a cell to the top keeps the number of cells. -/
theorem length_turned {s : Stack kind} (h : s.toList = below ++ x :: above) :
    (below ++ above ++ [x]).length = s.depth := by
  rw [← length_toList, h]
  simp

/-- The indexed cell is found by counting from the top. -/
theorem getElem?_reverse_indexed (h : above.length = u.toNat) :
    (below ++ x :: above).reverse[u.toNat]? = some x := by
  rw [← h, List.reverse_append, List.reverse_cons, ← List.length_reverse]
  simp

/-- A copy of the indexed cell takes the place of the index. -/
theorem pick_eq (h : above.length = u.toNat) :
    (Stack.mk (u :: (below ++ x :: above).reverse) room : Stack kind).pick =
      .ok ⟨(below ++ x :: above ++ [x]).reverse, room⟩ := by
  simp only [pick, pop, bind, Except.bind, getElem?_reverse_indexed h, push]
  rw [List.reverse_concat]

/-- The index is removed and the indexed cell comes to the top. -/
theorem roll_eq (h : above.length = u.toNat) :
    (Stack.mk (u :: (below ++ x :: above).reverse) room : Stack kind).roll =
      .ok ⟨(below ++ above ++ [x]).reverse, room + 1⟩ := by
  have herase : (below ++ x :: above).reverse.eraseIdx u.toNat = (below ++ above).reverse := by
    rw [← h, List.reverse_append, List.reverse_cons, List.append_assoc, List.reverse_append,
      ← List.length_reverse, List.eraseIdx_append_of_length_le (Nat.le_refl _), Nat.sub_self]
    rfl
  simp only [roll, pop, bind, Except.bind, getElem?_reverse_indexed h, herase]
  rw [List.reverse_concat]

/-- An index that names no cell is refused by both words. -/
theorem index_refused {cells : List Cell} (h : cells.length ≤ u.toNat) (room : Nat) :
    (Stack.mk (u :: cells) room : Stack kind).pick =
      .error (.stackUnderflow kind (indexDepth u) (cells.length + 1)) ∧
      (Stack.mk (u :: cells) room : Stack kind).roll =
        .error (.stackUnderflow kind (indexDepth u) (cells.length + 1)) := by
  have hnone : cells[u.toNat]? = none := List.getElem?_eq_none h
  constructor
  · simp only [pick, pop, bind, Except.bind, hnone]
    rfl
  · simp only [roll, pop, bind, Except.bind, hnone]
    rfl

/-- The top cell is copied if there is room for it. -/
theorem dup_eq {s : Stack kind} (h : s.toList = below ++ [x]) (hroom : s.room ≠ 0) :
    s.dup = .ok (s.holding (s.toList ++ [x])) := by
  rw [dup, pop_of_toList h, h, List.append_assoc]
  exact pushAll_below h (Nat.succ_le_succ (Nat.pos_of_ne_zero hroom))

/-- The second cell is copied if there is room for it. -/
theorem copySecond_eq {s : Stack kind} {y : Cell} (h : s.toList = below ++ [x, y])
    (hroom : s.room ≠ 0) : s.copySecond = .ok (s.holding (s.toList ++ [x])) := by
  rw [copySecond, popPair_of_toList h, h, List.append_assoc]
  exact pushAll_below h (Nat.succ_le_succ (Nat.succ_le_succ (Nat.pos_of_ne_zero hroom)))

/-- The two top cells are exchanged. -/
theorem swap_eq {s : Stack kind} {y : Cell} (h : s.toList = below ++ [x, y]) :
    s.swap = .ok (s.holding (below ++ [y, x])) := by
  rw [swap, popPair_of_toList h]
  exact pushAll_below h (Nat.le_add_left _ _)

/-- The three top cells are rotated. -/
theorem rot_eq {s : Stack kind} {y z : Cell} (h : s.toList = below ++ [x, y, z]) :
    s.rot = .ok (s.holding (below ++ [y, z, x])) := by
  rw [rot, popTriple_of_toList h]
  exact pushAll_below h (Nat.le_add_left _ _)

end Stack

namespace Item

open Machine

variable {m : Machine} (host : HostRunner) (budget : Nat) {u x : Cell}
  {below above block : List Cell}

/-- An index and the word that takes it. -/
def indexed (u : Cell) (p : Primitive) : List Item := [.literal u, .word p]

/-- The host pushes the index, and the word finds it on top. -/
theorem performAll_indexed (hroom : m.data.room ≠ 0) (p : Primitive) :
    performAll host budget (indexed u p) m =
      performAll host budget [.word p] { m with data := ⟨u :: m.data.cells, m.data.room - 1⟩ } :=
  performAll_literals host budget [.word p]
    (show [u].length ≤ m.data.room from Nat.pos_of_ne_zero hroom)

/-- An index that names no cell is refused with the stack left as it is, the index on top. -/
theorem performAll_refused (hroom : m.data.room ≠ 0) (hpick : m.Knows .pick) (hroll : m.Knows .roll)
    (h : m.data.depth ≤ u.toNat) {p : Primitive} (hp : p ∈ [.pick, .roll]) :
    performAll host budget (indexed u p) m =
      some (.halted (.fault (.stackUnderflow .data (Stack.indexDepth u) (m.data.depth + 1)))
        { m with data := m.data.holding (m.data.toList ++ [u]), current := some p.token }) := by
  obtain ⟨hpicked, hrolled⟩ := Stack.index_refused h (m.data.room - 1)
  rw [performAll_indexed host budget hroom, Stack.holding_concat]
  simp only [List.mem_cons, List.not_mem_nil, or_false] at hp
  rcases hp with rfl | rfl
  · exact performAll_halted host budget [] (Knows.invokes_data_refused hpick rfl hpicked)
  · exact performAll_halted host budget [] (Knows.invokes_data_refused hroll rfl hrolled)

/-- An index that names a cell is replaced by a copy of it. -/
theorem leads_pick (hroom : m.data.room ≠ 0) (hknows : m.Knows .pick)
    (hs : m.data.toList = below ++ x :: above) (hu : above.length = u.toNat) :
    Leads host budget (indexed u .pick) m
      { m with data := m.data.holding (m.data.toList ++ [x]) } := by
  have hpick : Stack.pick ⟨u :: m.data.cells, m.data.room - 1⟩ =
      .ok (m.data.holding (m.data.toList ++ [x])) := by
    rw [Stack.holding_concat, Stack.cells_eq, hs, Stack.pick_eq hu, List.reverse_concat]
  exact ⟨_, (performAll_indexed host budget hroom .pick).trans
    (performAll_word host budget [] (Knows.invokes_data hknows rfl hpick))⟩

/-- An index that names a cell is removed, and the block that starts with the cell is turned by one
place. -/
theorem leads_roll (hroom : m.data.room ≠ 0) (hknows : m.Knows .roll)
    (hs : m.data.toList = below ++ x :: above) (hu : above.length = u.toNat) :
    Leads host budget (indexed u .roll) m
      { m with data := m.data.holding (below ++ above ++ [x]) } := by
  have hlength := Stack.length_turned hs
  have hroll : Stack.roll ⟨u :: m.data.cells, m.data.room - 1⟩ =
      .ok (m.data.holding (below ++ above ++ [x])) := by
    rw [Stack.holding_of_length hlength, Stack.cells_eq, hs, Stack.roll_eq hu,
      Nat.sub_add_cancel (Nat.pos_of_ne_zero hroom)]
  exact ⟨_, (performAll_indexed host budget hroom .roll).trans
    (performAll_word host budget [] (Knows.invokes_data hknows rfl hroll))⟩

/-- Bringing the first cell of a block to the top again and again turns the block. -/
theorem leads_rolls (hroom : m.data.room ≠ 0) (hknows : m.Knows .roll)
    (hs : m.data.toList = below ++ block) (hu : block.length = u.toNat + 1) (count : Nat) :
    Leads host budget (List.replicate count (indexed u .roll)).flatten m
      { m with data := m.data.holding (below ++ block.rotate count) } := by
  -- One round turns the block by one place and leaves what is below it and the room.
  induction count generalizing m block with
  | zero =>
      refine ⟨m.current, ?_⟩
      rw [List.rotate_zero, ← hs, Stack.holding_toList]
      rfl
  | succ count ih =>
      obtain ⟨x, above, rfl⟩ := List.exists_cons_of_length_eq_add_one hu
      have habove : above.length = u.toNat := Nat.succ.inj hu
      have hlength := Stack.length_turned hs
      obtain ⟨current, hfirst⟩ := leads_roll host budget hroom hknows hs habove
      rw [List.append_assoc] at hlength hfirst
      let turned : Machine :=
        { m with data := m.data.holding (below ++ (above ++ [x])), current := current }
      have hturned : turned.data.toList = below ++ (above ++ [x]) := Stack.toList_holding _ _
      have hroom' : turned.data.room ≠ 0 := by
        rw [show turned.data = _ from Stack.holding_of_length hlength]
        exact hroom
      obtain ⟨current', hrest⟩ :=
        ih (m := turned) hroom' hknows hturned (by rw [List.length_append, habove]; rfl)
      refine ⟨current', ?_⟩
      rw [List.replicate_succ, List.flatten_cons, performAll_append host budget _ hfirst, hrest,
        List.rotate_cons_succ, Stack.holding_holding]
      rw [hlength]
      exact Nat.le_add_right _ _

/-- A word on the data stack that is refused where an index names no cell, and otherwise leaves what
the indexed word leaves, does the same as the index and the indexed word. -/
theorem leads_indexed_iff {p q : Primitive} {f : Stack .data → Except Fault (Stack .data)}
    {n : Machine} (hroom : m.data.room ≠ 0) (hknows : ∀ p, m.Knows p) (hp : p ∈ [.pick, .roll])
    (hq : q.effect? = some (Effect.onData f))
    (hshort : m.data.depth ≤ u.toNat → ∃ fault, f m.data = .error fault)
    (hlong : ∀ below x above, m.data.toList = below ++ x :: above → above.length = u.toNat →
      ∃ data, f m.data = .ok data ∧ Leads host budget (indexed u p) m { m with data := data }) :
    Leads host budget (indexed u p) m n ↔ Leads host budget [.word q] m n := by
  rcases Nat.lt_or_ge u.toNat m.data.depth with hlt | hle
  · obtain ⟨below, x, above, hs, hu⟩ := Stack.exists_indexed hlt
    obtain ⟨data, hdata, hindexed⟩ := hlong below x above hs hu
    exact hindexed.congr
      ⟨_, performAll_word host budget [] (Knows.invokes_data (hknows q) hq hdata)⟩
  · obtain ⟨fault, hfault⟩ := hshort hle
    have hindexed :=
      not_leads (n := n) (performAll_refused host budget hroom (hknows .pick) (hknows .roll) hle hp)
    have hword := not_leads (n := n)
      (performAll_halted host budget [] (Knows.invokes_data_refused (hknows q) hq hfault))
    exact iff_of_false hindexed hword

/-- An index and an indexed word succeed exactly when the index names a cell. -/
theorem exists_performAll_indexed_iff {p : Primitive} (hroom : m.data.room ≠ 0)
    (hknows : ∀ p, m.Knows p) (hp : p ∈ [.pick, .roll]) :
    (∃ n, performAll host budget (indexed u p) m = some (.done () n)) ↔ u.toNat < m.data.depth := by
  constructor
  · rintro ⟨n, hn⟩
    by_contra hnot
    rw [performAll_refused host budget hroom (hknows .pick) (hknows .roll)
      (Nat.le_of_not_lt hnot) hp] at hn
    cases hn
  · intro hu
    obtain ⟨below, x, above, hs, habove⟩ := Stack.exists_indexed hu
    simp only [List.mem_cons, List.not_mem_nil, or_false] at hp
    rcases hp with rfl | rfl
    · obtain ⟨current, hpick⟩ := leads_pick host budget hroom (hknows .pick) hs habove
      exact ⟨_, hpick⟩
    · obtain ⟨current, hroll⟩ := leads_roll host budget hroom (hknows .roll) hs habove
      exact ⟨_, hroll⟩

section Small

variable {n : Machine} (hroom : m.data.room ≠ 0) (hknows : ∀ p, m.Knows p)
include hroom hknows

/-- The cell at index zero is the top one. -/
theorem leads_zero_pick_iff :
    Leads host budget (indexed 0 .pick) m n ↔ Leads host budget [.word .dup] m n := by
  refine leads_indexed_iff host budget hroom hknows (by simp) rfl (fun h => ?_)
    fun below x above hs habove => ?_
  · exact ⟨_, by rw [Stack.dup, Stack.pop_short (Nat.lt_succ_of_le h)]; rfl⟩
  · obtain rfl := List.length_eq_zero_iff.mp habove
    exact ⟨_, Stack.dup_eq hs hroom, leads_pick host budget hroom (hknows .pick) hs rfl⟩

/-- The cell at index one is the second one. -/
theorem leads_one_pick_iff :
    Leads host budget (indexed 1 .pick) m n ↔ Leads host budget [.word .over] m n := by
  refine leads_indexed_iff host budget hroom hknows (by simp) rfl (fun h => ?_)
    fun below x above hs habove => ?_
  · exact ⟨_, by rw [Stack.copySecond, Stack.popPair_short (Nat.lt_succ_of_le h)]; rfl⟩
  · obtain ⟨y, rfl⟩ := List.length_eq_one_iff.mp habove
    exact ⟨_, Stack.copySecond_eq hs hroom, leads_pick host budget hroom (hknows .pick) hs rfl⟩

/-- Where there is a top cell, bringing it to the top does nothing. -/
theorem leads_zero_roll_iff :
    Leads host budget (indexed 0 .roll) m n ↔ m.data.toList ≠ [] ∧ Leads host budget [] m n := by
  rcases Nat.eq_zero_or_pos m.data.depth with hempty | hpos
  · have hnil : m.data.toList = [] := List.length_eq_zero_iff.mp (m.data.length_toList.trans hempty)
    have hrefused := performAll_refused host budget hroom (hknows .pick) (hknows .roll) (u := 0)
      (Nat.le_of_eq hempty) (p := .roll) (by simp)
    exact iff_of_false (not_leads hrefused) fun h => h.1 hnil
  · obtain ⟨below, x, above, hs, habove⟩ := Stack.exists_indexed hpos
    obtain rfl := List.length_eq_zero_iff.mp habove
    have hroll := leads_roll host budget hroom (hknows .roll) hs (u := 0) rfl
    rw [List.append_nil, ← hs, Stack.holding_toList] at hroll
    have hnonempty : m.data.toList ≠ [] := by rw [hs]; simp
    rw [and_iff_right hnonempty]
    exact hroll.congr ⟨m.current, rfl⟩

/-- Bringing the second cell to the top exchanges the two top cells. -/
theorem leads_one_roll_iff :
    Leads host budget (indexed 1 .roll) m n ↔ Leads host budget [.word .swap] m n := by
  refine leads_indexed_iff host budget hroom hknows (by simp) rfl (fun h => ?_)
    fun below x above hs habove => ?_
  · exact ⟨_, by rw [Stack.swap, Stack.popPair_short (Nat.lt_succ_of_le h)]; rfl⟩
  · obtain ⟨y, rfl⟩ := List.length_eq_one_iff.mp habove
    have hroll := leads_roll host budget hroom (hknows .roll) hs habove
    rw [List.append_assoc] at hroll
    exact ⟨_, Stack.swap_eq hs, hroll⟩

/-- Bringing the third cell to the top rotates the three top cells. -/
theorem leads_two_roll_iff :
    Leads host budget (indexed 2 .roll) m n ↔ Leads host budget [.word .rot] m n := by
  refine leads_indexed_iff host budget hroom hknows (by simp) rfl (fun h => ?_)
    fun below x above hs habove => ?_
  · exact ⟨_, by rw [Stack.rot, Stack.popTriple_short (Nat.lt_succ_of_le h)]; rfl⟩
  · obtain ⟨y, z, rfl⟩ := List.length_eq_two.mp habove
    have hroll := leads_roll host budget hroom (hknows .roll) hs habove
    rw [List.append_assoc] at hroll
    exact ⟨_, Stack.rot_eq hs, hroll⟩

end Small

end Item

namespace Machine

open Item

variable {m : Machine} {config : Config} {arguments : List String}

/-- On every stack of a live session that has room for it, an index is refused exactly when it names
no cell, with the needed depth as far as a cell can count, and the stack is left with the index on
top. Otherwise the indexed cell is copied, or brought to the top past the cells above it, which
turns the stack back after as many rounds as there are cells from it on. Small indices give the
words for the first few cells; an index of zero brings nothing to the top, provided that there is a
cell. -/
theorem Live.indexed_words (live : Live config arguments m) (hroom : m.data.room ≠ 0)
    (host : HostRunner) (budget : Nat) :
    (∀ u : Cell, ∀ p ∈ [Primitive.pick, .roll],
      ((∃ n, Item.performAll host budget (indexed u p) m = some (.done () n)) ↔
        u.toNat < m.data.toList.length) ∧
      (m.data.toList.length ≤ u.toNat → Item.performAll host budget (indexed u p) m =
        some (.halted
          (.fault (.stackUnderflow .data (min (u.toNat + 2) 0xFFFFFFFFFFFFFFFF)
            (m.data.toList.length + 1)))
          { m with data := m.data.holding (m.data.toList ++ [u]), current := some p.token }))) ∧
    (∀ u : Cell, u.toNat < m.data.toList.length →
      ∃ below x above, m.data.toList = below ++ x :: above ∧ above.length = u.toNat ∧
      Leads host budget (indexed u .pick) m
        { m with data := m.data.holding (m.data.toList ++ [x]) } ∧
      Leads host budget (indexed u .roll) m
        { m with data := m.data.holding (below ++ above ++ [x]) } ∧
      (below ++ above ++ [x]).Perm m.data.toList ∧
      Leads host budget (List.replicate (u.toNat + 1) (indexed u .roll)).flatten m m) ∧
    ∀ n, (Leads host budget (indexed 0 .pick) m n ↔ Leads host budget [.word .dup] m n) ∧
      (Leads host budget (indexed 1 .pick) m n ↔ Leads host budget [.word .over] m n) ∧
      (Leads host budget (indexed 0 .roll) m n ↔ m.data.toList ≠ [] ∧ Leads host budget [] m n) ∧
      (Leads host budget (indexed 1 .roll) m n ↔ Leads host budget [.word .swap] m n) ∧
      (Leads host budget (indexed 2 .roll) m n ↔ Leads host budget [.word .rot] m n) := by
  have hknows := fun p => live.wellFormed.knows p
  rw [Stack.length_toList]
  refine ⟨fun u p hp => ⟨exists_performAll_indexed_iff host budget hroom hknows hp, fun hle =>
    performAll_refused host budget hroom (hknows .pick) (hknows .roll) hle hp⟩, fun u hu => ?_,
    fun n => ?_⟩
  · obtain ⟨below, x, above, hs, habove⟩ := Stack.exists_indexed hu
    refine ⟨below, x, above, hs, habove, leads_pick host budget hroom (hknows .pick) hs habove,
      leads_roll host budget hroom (hknows .roll) hs habove, ?_, ?_⟩
    · rw [hs, List.append_assoc]
      exact (List.perm_append_singleton x above).append_left below
    · have hblock : (x :: above).length = u.toNat + 1 := congrArg Nat.succ habove
      have hrounds := leads_rolls host budget hroom (hknows .roll) hs hblock (x :: above).length
      rwa [List.rotate_length, ← hs, Stack.holding_toList, hblock] at hrounds
  · exact ⟨leads_zero_pick_iff host budget hroom hknows,
      leads_one_pick_iff host budget hroom hknows, leads_zero_roll_iff host budget hroom hknows,
      leads_one_roll_iff host budget hroom hknows, leads_two_roll_iff host budget hroom hknows⟩

/-- On three cells with room for one more, the deepest cell is copied and brought to the top, which
three rounds undo, and the greatest index is refused. -/
theorem Live.indexed_words_three :
    ∃ m, Live { dataStack := 4 } [] m ∧ m.data.toList = [10, 20, 30] ∧ m.data.room = 1 ∧
      Leads (HostCode.run 0) 0 (indexed 2 .pick) m
        { m with data := m.data.holding [10, 20, 30, 10] } ∧
      Leads (HostCode.run 0) 0 (indexed 2 .roll) m { m with data := m.data.holding [20, 30, 10] } ∧
      Leads (HostCode.run 0) 0 (List.replicate 3 (indexed 2 .roll)).flatten m m ∧
      Item.performAll (HostCode.run 0) 0 (indexed 0xFFFFFFFFFFFFFFFF .roll) m =
        some (.halted (.fault (.stackUnderflow .data 0xFFFFFFFFFFFFFFFF 4)) { m with
          data := m.data.holding [10, 20, 30, 0xFFFFFFFFFFFFFFFF],
          current := some Primitive.roll.token }) := by
  have hsession : afterItems { dataStack := 4 } [.literal 10, .literal 20, .literal 30]
      (fun m => m.data.toList == [10, 20, 30] && m.data.room == 1) = true := by decide +kernel
  obtain ⟨m, live, hchecks⟩ := live_of_afterItems hsession
  simp only [Bool.and_eq_true, beq_iff_eq] at hchecks
  obtain ⟨hcells, hroom⟩ := hchecks
  obtain ⟨hindexed, hnamed, -⟩ := live.indexed_words (by rw [hroom]; decide) (HostCode.run 0) 0
  rw [hcells] at hindexed hnamed
  obtain ⟨below, x, above, hs, habove, hpick, hroll, -, hrounds⟩ := hnamed 2 (by decide)
  obtain ⟨y, z, rfl⟩ := List.length_eq_two.mp habove
  obtain ⟨rfl, rfl, rfl, rfl⟩ : below = [] ∧ x = 10 ∧ y = 20 ∧ z = 30 := by
    have hlength := congrArg List.length hs
    simp only [List.length_append, List.length_cons, List.length_nil] at hlength
    obtain rfl := List.length_eq_zero_iff.mp (show below.length = 0 by omega)
    cases hs
    exact ⟨rfl, rfl, rfl, rfl⟩
  exact ⟨m, live, hcells, hroom, hpick, hroll, hrounds,
    (hindexed 0xFFFFFFFFFFFFFFFF .roll (by simp)).2 (by decide)⟩

/-- On an empty stack an index of zero names no cell: bringing it to the top is refused, where doing
nothing succeeds. -/
theorem Live.zero_roll_of_empty :
    ∃ m, Live {} [] m ∧ m.data.toList = [] ∧ m.data.room ≠ 0 ∧ Leads (HostCode.run 0) 0 [] m m ∧
      Item.performAll (HostCode.run 0) 0 (indexed 0 .roll) m =
        some (.halted (.fault (.stackUnderflow .data 2 1))
          { m with data := m.data.holding [0], current := some Primitive.roll.token }) ∧
      ¬ (Leads (HostCode.run 0) 0 (indexed 0 .roll) m m ↔ Leads (HostCode.run 0) 0 [] m m) := by
  have hsession : afterItems {} [] (fun m => m.data.toList == [] && m.data.room != 0) = true := by
    decide +kernel
  obtain ⟨m, live, hchecks⟩ := live_of_afterItems hsession
  simp only [Bool.and_eq_true, beq_iff_eq, bne_iff_ne] at hchecks
  obtain ⟨hcells, hroom⟩ := hchecks
  have hempty : m.data.depth = 0 := by rw [← Stack.length_toList, hcells]; rfl
  have hknows := fun p => live.wellFormed.knows p
  have hnothing : Leads (HostCode.run 0) 0 [] m m := ⟨m.current, rfl⟩
  have hrefused := performAll_refused (HostCode.run 0) 0 hroom (hknows .pick) (hknows .roll)
    (u := 0)
    (Nat.le_of_eq hempty) (p := .roll) (by simp)
  rw [hempty, hcells] at hrefused
  exact ⟨m, live, hcells, hroom, hnothing, hrefused,
    fun hiff => not_leads hrefused (hiff.mpr hnothing)⟩

end Machine

end ThreadedForth
