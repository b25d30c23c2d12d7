import ThreadedForth.Proofs.Branching
import ThreadedForth.Proofs.Compilation
import ThreadedForth.Proofs.Indexing

/-!
# A compiled loop

A definition that counts a literal down to zero, with a forward branch out of the loop and a
backward branch to its start. It is compiled wherever `here` is. Each round of the loop takes four
steps and makes the cell on top of the stack smaller by one, so executing the definition ends for
every literal, after a number of steps that is determined by the literal.
-/

namespace ThreadedForth

namespace Stack

variable {kind : StackKind} {s : Stack kind} {cells : List Cell} {x : Cell}

/-- A cell is pushed on given cells if there is room for it. -/
theorem push_holding (h : cells.length < s.capacity) :
    (s.holding cells).push x = .ok (s.holding (cells ++ [x])) := by
  rw [push_eq_ok]
  constructor
  · exact List.reverse_concat
  · simp only [holding, List.length_append, List.length_singleton]
    omega

/-- The last of given cells is copied if there is room for it. -/
theorem dup_holding (h : cells.length + 1 < s.capacity) :
    (s.holding (cells ++ [x])).dup = .ok (s.holding (cells ++ [x] ++ [x])) := by
  have hlength : (cells ++ [x]).length < s.capacity := by
    rwa [List.length_append, List.length_singleton]
  have hroom : (s.holding (cells ++ [x])).room ≠ 0 := Nat.sub_ne_zero_of_lt hlength
  rw [dup_eq (toList_holding s _) hroom, toList_holding, holding_holding (Nat.le_of_lt hlength)]

/-- The last of given cells is replaced by its image. -/
theorem unary_holding (f : Cell → Cell) (h : cells.length < s.capacity) :
    (s.holding (cells ++ [x])).unary f = .ok (s.holding (cells ++ [f x])) := by
  have hlength : (cells ++ [x]).length ≤ s.capacity := by
    rwa [List.length_append, List.length_singleton]
  rw [unary, pop_of_toList (toList_holding s _), holding_holding hlength]
  exact push_holding h

end Stack

namespace Machine

variable {m n o c : Machine} {stop : Option Cell} {count : Nat}

/-- A number of successful steps from one machine to another, none of which starts at a given
cursor. -/
inductive ReachesIn (stop : Option Cell) : Nat → Machine → Machine → Prop where
  | refl (m : Machine) : ReachesIn stop 0 m m
  | step {m n o : Machine} {count : Nat} :
      m.cursor ≠ stop → (∀ host, m.step host = some (.done () n)) →
      ReachesIn stop count n o → ReachesIn stop (count + 1) m o

/-- Numbers of steps add up. -/
theorem ReachesIn.trans {more : Nat} (hmn : ReachesIn stop count m n)
    (hno : ReachesIn stop more n o) : ReachesIn stop (more + count) m o := by
  induction hmn with
  | refl _ => exact hno
  | step hcursor hstep _ ih => exact .step hcursor hstep (ih hno)

/-- The stepping loop takes exactly as many steps as lead to the given cursor, and a smaller budget
is not enough. -/
theorem ReachesIn.stepUntil_eq (h : ReachesIn stop count m n) (hstop : n.cursor = stop)
    (host : HostRunner) (budget : Nat) :
    m.stepUntil host stop budget = if count ≤ budget then some (.done () n) else none := by
  induction h generalizing budget with
  | refl m => rw [stepUntil_of_cursor hstop, if_pos (Nat.zero_le budget)]
  | step hcursor hstep _ ih =>
      cases budget with
      | zero => rw [stepUntil, if_neg hcursor]; rfl
      | succ budget =>
          rw [stepUntil, if_neg hcursor, hstep host]
          simp only [ih hstop, Nat.add_le_add_iff_right]

/-- A machine inside a definition that was called with an unset cursor: the cells on its data stack,
the position of the cursor and the current word. -/
def inside (c : Machine) (cells : List Cell) (position : Nat) (current : Option Nat) : Machine :=
  { c with
    data := c.data.holding cells
    returns := ⟨unsetMark :: c.returns.cells, c.returns.room - 1⟩
    cursor := some (UInt64.ofNat position)
    current := current }

/-- The cell that leads a branch from its slot to a target. -/
def offsetTo (slot target : Nat) : Cell := UInt64.ofInt (target - slot)

/-- A branch from a slot with the cell for a target leads there. -/
theorem branchTarget_offsetTo {slot target : Nat} (hslot : slot < 2 ^ 63)
    (htarget : target < 2 ^ 63) :
    branchTarget (UInt64.ofNat slot) (offsetTo slot target) = .ok (UInt64.ofNat target) := by
  have htoNat : (UInt64.ofNat slot).toNat = slot := by
    rw [UInt64.toNat_ofNat', Nat.mod_eq_of_lt (Nat.lt_trans hslot (by decide))]
  have hbranch := @branchTarget_ofInt (UInt64.ofNat slot) target (by rwa [htoNat]) htarget
  rwa [htoNat] at hbranch

section Steps

variable {cells : List Cell} {position target : Nat} {current : Option Nat} {x : Cell}
  {p : Primitive}

/-- A primitive that is invoked behind its cell has been reached by one step. -/
theorem ReachesIn.of_invokes
    (hfetch : c.space.fetch (UInt64.ofNat position) = .ok (UInt64.ofNat p.token))
    (h : (c.inside cells (position + 8) current).Invokes p (.done () n)) :
    ReachesIn none 1 (c.inside cells position current) n := by
  refine .step nofun (fun host => h.step host rfl hfetch ?_) (.refl n)
  rw [inside, UInt64.ofNat_add]
  rfl

/-- A word on the data stack leads behind its cell. -/
theorem ReachesIn.data {f : Stack .data → Except Fault (Stack .data)} {results : List Cell}
    (hknows : c.Knows p)
    (hfetch : c.space.fetch (UInt64.ofNat position) = .ok (UInt64.ofNat p.token))
    (heffect : p.effect? = some (Effect.onData f))
    (hf : f (c.data.holding cells) = .ok (c.data.holding results)) :
    ReachesIn none 1 (c.inside cells position current)
      (c.inside results (position + 8) (some p.token)) :=
  .of_invokes hfetch (Knows.invokes_data hknows heffect hf)

/-- A literal leads behind its operand, with the operand on the stack. -/
theorem ReachesIn.literal (hknows : c.Knows .literal)
    (hfetch : c.space.fetch (UInt64.ofNat position) = .ok (UInt64.ofNat Primitive.literal.token))
    (hoperand : c.space.fetch (UInt64.ofNat (position + 8)) = .ok x)
    (hroom : cells.length < c.data.capacity) :
    ReachesIn none 1 (c.inside cells position current)
      (c.inside (cells ++ [x]) (position + 16) (some Primitive.literal.token)) := by
  refine .of_invokes hfetch (Knows.invokes_done hknows rfl ?_)
  simp only [literalWord, operand, inside, hoperand, Stack.push_holding hroom, bind, Except.bind,
    pure, Except.pure]
  rw [UInt64.ofNat_add (position + 8) 8]
  rfl

/-- A branch leads to the target that its slot is for. -/
theorem ReachesIn.branch (hknows : c.Knows .branch)
    (hfetch : c.space.fetch (UInt64.ofNat position) = .ok (UInt64.ofNat Primitive.branch.token))
    (hslot : c.space.fetch (UInt64.ofNat (position + 8)) = .ok (offsetTo (position + 8) target))
    (hposition : position + 8 < 2 ^ 63) (htarget : target < 2 ^ 63) :
    ReachesIn none 1 (c.inside cells position current)
      (c.inside cells target (some Primitive.branch.token)) := by
  have hinvokes :=
    Knows.invokes_branch (m := c.inside cells (position + 8) current) hknows
      (operand_of_fetch rfl hslot)
  rw [branchTarget_offsetTo hposition htarget] at hinvokes
  exact .of_invokes hfetch hinvokes

/-- A conditional branch takes the last cell. It leads to the target that its slot is for when that
cell is zero, and behind the slot otherwise. -/
theorem ReachesIn.zeroBranch (hknows : c.Knows .zeroBranch)
    (hfetch : c.space.fetch (UInt64.ofNat position) = .ok (UInt64.ofNat Primitive.zeroBranch.token))
    (hslot : c.space.fetch (UInt64.ofNat (position + 8)) = .ok (offsetTo (position + 8) target))
    (hposition : position + 8 < 2 ^ 63) (htarget : target < 2 ^ 63)
    (hroom : cells.length < c.data.capacity) :
    ReachesIn none 1 (c.inside (cells ++ [x]) position current)
      (c.inside cells (if x = 0 then target else position + 16)
        (some Primitive.zeroBranch.token)) := by
  have hlength : (cells ++ [x]).length ≤ c.data.capacity := by
    rwa [List.length_append, List.length_singleton]
  have hinvokes := Knows.invokes_zeroBranch
    (m := c.inside (cells ++ [x]) (position + 8) current) hknows
    (operand_of_fetch rfl hslot) (Stack.toList_holding _ _)
  rw [branchTarget_offsetTo hposition htarget,
    show (c.inside (cells ++ [x]) (position + 8) current).data.holding cells =
    c.data.holding cells from Stack.holding_holding hlength cells] at hinvokes
  refine .of_invokes hfetch ?_
  by_cases hx : x = 0
  · rw [if_pos hx] at hinvokes ⊢
    exact hinvokes
  · have hbehind : UInt64.ofNat (position + 8) + 8 = UInt64.ofNat (position + 16) :=
      (UInt64.ofNat_add (position + 8) 8).symm
    rw [if_neg hx] at hinvokes ⊢
    rw [hbehind] at hinvokes
    exact hinvokes

/-- The end of the definition leads back to the unset cursor. -/
theorem ReachesIn.exit (hknows : c.Knows .exit)
    (hfetch : c.space.fetch (UInt64.ofNat position) = .ok (UInt64.ofNat Primitive.exit.token))
    (hreturns : 1 ≤ c.returns.room) :
    ReachesIn none 1 (c.inside cells position current)
      { c with
        data := c.data.holding cells, cursor := none, current := some Primitive.exit.token } := by
  refine .of_invokes hfetch (Knows.invokes_done hknows rfl ?_)
  simp only [exitWord, inside, Stack.pop, bind, Except.bind, pure, Except.pure,
    Nat.sub_add_cancel hreturns]
  rfl

end Steps

/-- Executing a definition from an unset cursor steps through its code until the cursor is unset
again. -/
theorem execute_of_unset {host : HostRunner} {budget : Nat} {token : Cell} {d : Definition}
    (hcursor : c.cursor = none) (hreturns : 1 ≤ c.returns.room) (hresolve : c.resolve token = .ok d)
    (haction : d.action = .nested) :
    c.execute host budget token =
      (c.inside c.data.toList d.body (some token.toNat)).stepUntil host none budget := by
  have hpush : c.returns.push (saveCursor c.cursor) =
      .ok ⟨unsetMark :: c.returns.cells, c.returns.room - 1⟩ :=
    Stack.push_eq_ok.mpr ⟨by rw [hcursor]; rfl, Nat.sub_add_cancel hreturns⟩
  rw [execute_of_nested host budget hresolve haction hpush, hcursor, inside, Stack.holding_toList]
  rfl

/-- The code of the loop: copy the cell on top, leave when it is zero, and otherwise subtract one
and start again. The last cell ends the definition. -/
def countdownLoop (top : Nat) : List Cell :=
  [UInt64.ofNat Primitive.dup.token,
    UInt64.ofNat Primitive.zeroBranch.token, offsetTo (top + 16) (top + 48),
    UInt64.ofNat Primitive.oneMinus.token,
    UInt64.ofNat Primitive.branch.token, offsetTo (top + 40) top,
    UInt64.ofNat Primitive.exit.token]

variable {config : Config} {arguments : List String} {cells : List Cell} {top : Nat}

/-- A cell of code is read from its place. -/
theorem Carries.fetch_at {address position : Nat} {x : Cell} (h : c.Carries address cells)
    (hwell : c.WellFormed config arguments) (index : Nat)
    (hposition : position = address + 8 * index) (hx : cells[index]? = some x) :
    c.space.fetch (UInt64.ofNat position) = .ok x := by
  have hindex : index < cells.length := (List.getElem?_eq_some_iff.mp hx).1
  have hhigh := h.high
  have hhere := hwell.here_lt_size
  rw [hposition, ← h.cell hx]
  refine DataSpace.fetch_ofNat (Nat.dvd_add h.aligned (Nat.dvd_mul_right _ _)) ?_
    (hwell.space_size ▸ hwell.valid.dataSpace.2)
  simp only [cellSize] at hhigh ⊢
  omega

/-- Code lies where branches can lead. -/
theorem Carries.end_lt {address : Nat} (h : c.Carries address cells)
    (hwell : c.WellFormed config arguments) : address + 8 * cells.length < 2 ^ 63 := by
  have hhigh : address + 8 * cells.length ≤ c.space.here := h.high
  have hhere := hwell.here_lt
  have hmaximum : config.dataSpace ≤ 0x40000000 := hwell.valid.dataSpace.2
  omega

section Loop

variable (hwell : c.WellFormed config arguments) (hcode : c.Carries top (countdownLoop top))
  (hdata : cells.length + 1 < c.data.capacity)
include hwell hcode hdata

/-- Copying the cell on top and testing it takes two steps. -/
theorem reachesIn_countdown_test (k : Cell) (current : Option Nat) :
    ReachesIn none 2 (c.inside (cells ++ [k]) top current)
      (c.inside (cells ++ [k]) (if k = 0 then top + 48 else top + 24)
        (some Primitive.zeroBranch.token)) := by
  have hlength : (cells ++ [k]).length < c.data.capacity := by
    rwa [List.length_append, List.length_singleton]
  have hend := hcode.end_lt hwell
  rw [show (countdownLoop top).length = 7 from rfl] at hend
  have hcopy : ReachesIn none 1 (c.inside (cells ++ [k]) top current)
      (c.inside (cells ++ [k] ++ [k]) (top + 8) (some Primitive.dup.token)) :=
    .data (hwell.knows .dup) (hcode.fetch_at hwell 0 (by omega) rfl) rfl
      (Stack.dup_holding hdata)
  exact hcopy.trans (.zeroBranch (hwell.knows .zeroBranch)
    (hcode.fetch_at hwell 1 (by omega) rfl)
    (hcode.fetch_at hwell 2 (by omega) rfl) (by omega) (by omega) hlength)

/-- Subtracting one and going back takes two steps. -/
theorem reachesIn_countdown_back (k : Cell) (current : Option Nat) :
    ReachesIn none 2 (c.inside (cells ++ [k]) (top + 24) current)
      (c.inside (cells ++ [k - 1]) top (some Primitive.branch.token)) := by
  have hend := hcode.end_lt hwell
  rw [show (countdownLoop top).length = 7 from rfl] at hend
  have hless : ReachesIn none 1 (c.inside (cells ++ [k]) (top + 24) current)
      (c.inside (cells ++ [k - 1]) (top + 32) (some Primitive.oneMinus.token)) :=
    .data (hwell.knows .oneMinus) (hcode.fetch_at hwell 3 (by omega) rfl) rfl
      (Stack.unary_holding (· - 1) (Nat.lt_of_succ_lt hdata))
  exact hless.trans (.branch (hwell.knows .branch)
    (hcode.fetch_at hwell 4 (by omega) rfl)
    (hcode.fetch_at hwell 5 (by omega) rfl) (by omega) (by omega))

/-- From the start of the loop with a cell on top, the definition ends with zero there after four
steps for each round and three for the last test and the return. -/
theorem reachesIn_countdown (hreturns : 1 ≤ c.returns.room) (k : Cell) (current : Option Nat) :
    ReachesIn none (4 * k.toNat + 3) (c.inside (cells ++ [k]) top current)
      { c with
        data := c.data.holding (cells ++ [0]), cursor := none,
        current := some Primitive.exit.token } := by
  -- The invariant is the machine at the start of a round; the cell on top is what gets smaller.
  generalize hcount : k.toNat = count
  induction count generalizing k current with
  | zero =>
      obtain rfl : k = 0 := UInt64.toNat_inj.mp hcount
      have htest := reachesIn_countdown_test hwell hcode hdata 0 current
      rw [if_pos rfl] at htest
      exact htest.trans (.exit (hwell.knows .exit)
        (hcode.fetch_at hwell 6 (by omega) rfl) hreturns)
  | succ count ih =>
      have hk : k ≠ 0 := by
        rintro rfl
        cases hcount
      have hless : (k - 1).toNat = count := by
        rw [UInt64.toNat_sub_of_le k 1
          (by rw [UInt64.le_iff_toNat_le, hcount]; exact Nat.le_add_left 1 count), hcount]
        rfl
      have htest := reachesIn_countdown_test hwell hcode hdata k current
      rw [if_neg hk] at htest
      exact (htest.trans (reachesIn_countdown_back hwell hcode hdata k _)).trans
        (ih (k - 1) _ hless)

end Loop

/-- Compile cells one after the other. -/
def compileCells (m : Machine) : List Cell → Except Fault Machine
  | [] => .ok m
  | x :: rest => do (← m.compileCell x).compileCells rest

/-- The code of the definition from a cell boundary on: the literal and the loop. -/
def countdownCode (base : Nat) (n : Cell) : List Cell :=
  [UInt64.ofNat Primitive.literal.token, n] ++ countdownLoop (base + 16)

/-- Add a colon definition that counts a literal down, and give its token. -/
def compileCountdown (m : Machine) (name : String) (n : Cell) : Except Fault (Nat × Machine) := do
  let (token, added) ← m.define name .nested false
  let started ← added.compileLiteral n
  return (token, ← started.compileCells (countdownLoop started.space.here))

/-- Cells for which there is room at a cell boundary can be appended. -/
theorem exists_appendCells (cells : List Cell) (haligned : 8 ∣ m.space.here)
    (hroom : m.space.here + 8 * cells.length < m.space.size) :
    ∃ space, m.space.appendCells cells = .ok space ∧ m.Lays cells { m with space := space } := by
  have hlength : (cells.flatMap Cell.toBytes).length = 8 * cells.length :=
    Cell.length_flatMap_toBytes cells
  have happend := DataSpace.appendCells_eq_ok.mpr
    ⟨isAligned_ofNat.mpr haligned, DataSpace.append_eq_ok.mpr ⟨by rwa [hlength], rfl⟩⟩
  refine ⟨_, happend, lays_of_appendCells ?_⟩
  rw [happend]
  rfl

/-- Cells for which there is room at a cell boundary can be compiled. -/
theorem exists_compileCells (cells : List Cell) (haligned : 8 ∣ m.space.here)
    (hroom : m.space.here + 8 * cells.length < m.space.size) :
    ∃ space, m.compileCells cells = .ok { m with space := space } ∧
      m.Lays cells { m with space := space } := by
  induction cells generalizing m with
  | nil =>
      exact ⟨m.space, rfl, .refl m, .of_eq rfl, rfl, rfl,
        fun hlow => ⟨haligned, hlow, Nat.le_refl _, nofun⟩⟩
  | cons x rest ih =>
      rw [List.length_cons, Nat.mul_add, Nat.add_comm (8 * _), ← Nat.add_assoc] at hroom
      obtain ⟨space, happend, hlays⟩ :=
        exists_appendCells [x] haligned (Nat.lt_of_le_of_lt (Nat.le_add_right _ _) hroom)
      have hhere : space.here = m.space.here + 8 := hlays.here
      have hsize : space.size = m.space.size := hlays.continues.space.size
      obtain ⟨space', hrest, hlays'⟩ := ih (m := { m with space := space })
        (by rw [hhere]; exact Nat.dvd_add_self_right.mpr haligned)
          (by rw [hhere, hsize]; exact hroom)
      refine ⟨space', ?_, hlays.append hlays'⟩
      rw [Machine.compileCells, compileCell, happend]
      exact hrest

/-- Compiling cells is a sequence of operations of the session. -/
theorem Live.compileCells (live : Live config arguments m) (h : m.compileCells cells = .ok n) :
    Live config arguments n := by
  induction cells generalizing m with
  | nil =>
      cases h
      exact live
  | cons x rest ih =>
      obtain ⟨next, hnext, hrest⟩ := bind_eq_ok.mp h
      have hperform : (Operation.ask (.compileCell x)).perform 0 m = some (.done () next) := by
        change some (m.attempt (m.compileCell x)) = _
        rw [hnext]
        rfl
      exact ih (.perform _ 0 live hperform) hrest

/-- The code of the definition compiles at a cell boundary where there is room for it. -/
theorem exists_countdownCode (haligned : 8 ∣ m.space.here)
    (hroom : m.space.here + 72 < m.space.size) (n : Cell) :
    ∃ started space, m.compileLiteral n = .ok started ∧
      started.compileCells (countdownLoop started.space.here) = .ok { m with space := space } ∧
      m.Lays (countdownCode m.space.here n) { m with space := space } := by
  obtain ⟨space, happend, hliteral⟩ := exists_appendCells
    [UInt64.ofNat Primitive.literal.token, n] haligned
    (show m.space.here + 16 < m.space.size by omega)
  have hhere : space.here = m.space.here + 16 := hliteral.here
  have hsize : space.size = m.space.size := hliteral.continues.space.size
  obtain ⟨space', hloop, hlays⟩ := exists_compileCells (m := { m with space := space })
    (countdownLoop space.here)
    (show 8 ∣ space.here by rw [hhere]; exact Nat.dvd_add haligned (by decide))
    (show space.here + 56 < space.size by omega)
  refine ⟨{ m with space := space }, space', ?_, hloop, ?_⟩
  · rw [compileLiteral, happend]
    rfl
  · rw [countdownCode, ← hhere]
    exact hliteral.append hlays

/-- What compiling the definition leaves: its code at the next cell boundary, named by its token, in
a session that is otherwise as it was. -/
structure CountsDown (m : Machine) (n : Cell) (token : Nat) (compiled : Machine) : Prop where
  rest : compiled = { m with dictionary := compiled.dictionary, space := compiled.space }
  named : ∃ d, compiled.resolve (UInt64.ofNat token) = .ok d ∧ d.action = .nested ∧
    d.body = alignUp m.space.here
  code : compiled.Carries (alignUp m.space.here) (countdownCode (alignUp m.space.here) n)

/-- The definition is compiled wherever there is room. -/
theorem Live.exists_compileCountdown (live : Live config arguments m) {name : String}
    (hname : name.utf8ByteSize ≤ Name.maxLength)
    (hdictionary : m.dictionary.size < m.dictionary.capacity)
    (hspace : alignUp m.space.here + 72 < m.space.size) (n : Cell) :
    ∃ token compiled, m.compileCountdown name n = .ok (token, compiled) ∧
      Live config arguments compiled ∧ m.CountsDown n token compiled := by
  let added : Machine := { m with
    dictionary := ⟨m.dictionary.entries.push
      { name := name, action := .nested, body := alignUp m.space.here, immediate := false },
      m.dictionary.capacity⟩
    space := { m.space with here := alignUp m.space.here } }
  have hdefine : m.define name .nested false = .ok (m.dictionary.size, added) :=
    define_eq_ok.mpr ⟨⟨hname, hdictionary, by omega⟩, rfl, rfl⟩
  obtain ⟨started, space, hliteral, hloop, hlays⟩ :=
    exists_countdownCode (m := added) (dvd_alignUp _) hspace n
  have hcompile : m.compileCountdown name n =
      .ok (m.dictionary.size, { added with space := space }) :=
    bind_eq_ok.mpr ⟨_, hdefine, bind_eq_ok.mpr ⟨_, hliteral, bind_eq_ok.mpr ⟨_, hloop, rfl⟩⟩⟩
  have hstarted : Live config arguments started :=
    (live.defineColon hdefine).compileItem
      (show added.compileItem (.literal n) = .ok started from hliteral)
  have hresolve := resolve_of_define live.wellFormed hdefine
  have hlow : m.config.systemArea ≤ alignUp m.space.here :=
    live.wellFormed.config_eq ▸ Nat.le_trans live.wellFormed.system_le (le_alignUp m.space.here)
  exact ⟨_, _, hcompile, hstarted.compileCells hloop,
    rfl, ⟨_, hresolve, rfl, rfl⟩, hlays.carries hlow⟩

/-- Executing the definition from an unset cursor takes four steps for each number down to zero and
four more. -/
theorem CountsDown.execute_eq {token : Nat} {compiled : Machine} {n : Cell}
    (h : m.CountsDown n token compiled) (live : Live config arguments compiled)
    (hcursor : m.cursor = none) (hdata : 2 ≤ m.data.room) (hreturns : 1 ≤ m.returns.room)
    (host : HostRunner) (budget : Nat) :
    compiled.execute host budget (UInt64.ofNat token) =
      if 4 * n.toNat + 4 ≤ budget then
        some (.done () { compiled with
          data := m.data.holding (m.data.toList ++ [0]), cursor := none,
          current := some Primitive.exit.token })
      else none := by
  have hwell := live.wellFormed
  obtain ⟨d, hresolve, haction, hbody⟩ := h.named
  have hsame : compiled.data = m.data ∧ compiled.returns = m.returns ∧
      compiled.cursor = m.cursor := by
    rw [h.rest]
    exact ⟨rfl, rfl, rfl⟩
  obtain ⟨hdata', hreturns', hcursor'⟩ := hsame
  rw [← hdata'] at hdata ⊢
  rw [← hreturns'] at hreturns
  have hcapacity : compiled.data.toList.length + 1 < compiled.data.capacity := by
    rw [Stack.length_toList, Stack.capacity]
    omega
  rw [execute_of_unset (hcursor'.trans hcursor) hreturns hresolve haction, hbody]
  refine (ReachesIn.literal (hwell.knows .literal) ?_ ?_ (Nat.lt_of_succ_lt hcapacity)).trans
    (reachesIn_countdown hwell h.code.drop hcapacity hreturns n _) |>.stepUntil_eq rfl host budget
  · exact h.code.fetch_at hwell 0 rfl rfl
  · exact h.code.fetch_at hwell 1 rfl rfl

/-- The loop ends for every literal. Wherever `here` is, the definition compiles if there is room
for it. Executed from an unset cursor, with room for two cells and one call, it returns with zero on
top of the stack after four steps for each number down to zero and four more: a budget of that many
steps is enough, and no smaller one is. The return stack and data space are left as they were
compiled, and the cursor is unset. -/
theorem Live.countdown_returns (live : Live config arguments m) (hcursor : m.cursor = none)
    (hdata : 2 ≤ m.data.room) (hreturns : 1 ≤ m.returns.room) {name : String}
    (hname : name.utf8ByteSize ≤ Name.maxLength)
    (hdictionary : m.dictionary.size < m.dictionary.capacity)
    (hspace : alignUp m.space.here + 72 < m.space.size) (n : Cell) :
    ∃ token compiled, m.compileCountdown name n = .ok (token, compiled) ∧
      Live config arguments compiled ∧ m.CountsDown n token compiled ∧
      ∀ host budget, compiled.execute host budget (UInt64.ofNat token) =
        if 4 * n.toNat + 4 ≤ budget then
          some (.done () { compiled with
            data := m.data.holding (m.data.toList ++ [0]), cursor := none,
            current := some Primitive.exit.token })
        else none := by
  obtain ⟨token, compiled, hcompile, hlive, hcounts⟩ :=
    live.exists_compileCountdown hname hdictionary hspace n
  exact ⟨token, compiled, hcompile, hlive, hcounts, hcounts.execute_eq hlive hcursor hdata hreturns⟩

/-- The greatest literal, compiled behind a single byte: the definition returns after exactly as
many steps as four times the number of all cells. -/
theorem Live.countdown_returns_greatest :
    ∃ m token compiled, Live {} [] m ∧ m.space.here = 273 ∧ m.data.toList = [7] ∧
      m.compileCountdown "COUNTDOWN" 0xFFFFFFFFFFFFFFFF = .ok (token, compiled) ∧
      compiled.execute (HostCode.run 0) 0x3FFFFFFFFFFFFFFFF (UInt64.ofNat token) = none ∧
      compiled.execute (HostCode.run 0) 0x40000000000000000 (UInt64.ofNat token) =
        some (.done () { compiled with
          data := m.data.holding [7, 0], cursor := none,
          current := some Primitive.exit.token }) := by
  have hsession : afterItems {} [.literal 7, .literal 65, .word .cComma] (fun m =>
      m.space.here == 273 && m.data.toList == [7] && m.cursor == none && decide (2 ≤ m.data.room) &&
        decide (1 ≤ m.returns.room) && decide (m.dictionary.size < m.dictionary.capacity) &&
        decide (m.space.size = 65536)) = true := by decide +kernel
  obtain ⟨m, live, hchecks⟩ := live_of_afterItems hsession
  simp only [Bool.and_eq_true, beq_iff_eq, decide_eq_true_eq] at hchecks
  obtain ⟨⟨⟨⟨⟨⟨hhere, hcells⟩, hcursor⟩, hdata⟩, hreturns⟩, hdictionary⟩, hsize⟩ := hchecks
  have hname : "COUNTDOWN".utf8ByteSize ≤ Name.maxLength := by decide
  obtain ⟨token, compiled, hcompile, -, -, hexecute⟩ :=
    live.countdown_returns hcursor hdata hreturns hname hdictionary
    (by rw [hhere, hsize]; decide) 0xFFFFFFFFFFFFFFFF
  rw [hcells] at hexecute
  exact ⟨m, token, compiled, live, hhere, hcells, hcompile,
    (hexecute _ _).trans (if_neg (by decide)),
    (hexecute _ _).trans (if_pos (by decide))⟩

end Machine

end ThreadedForth
