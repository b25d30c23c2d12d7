import ThreadedForth.Proofs.Inlining

/-!
# Compiling colon definitions

A colon definition is compiled by adding it to the dictionary, appending the code of its items and
then the word that returns. The code stays in place as long as nothing overwrites it, so the
definition can be executed at any later time of the session. It then does what the host does when it
goes through the flat list of the definition itself: calls through threaded code mean the same as
inlining.
-/

namespace ThreadedForth

/-- Cells have eight bytes each. -/
theorem Cell.length_flatMap_toBytes (cells : List Cell) :
    (cells.flatMap Cell.toBytes).length = cellSize * cells.length := by
  rw [List.length_flatMap, List.map_congr_left fun x _ => Cell.length_toBytes x, List.map_const',
    List.sum_replicate_nat, Nat.mul_comm]

/-- The cells that have been written to a range are read from it. -/
theorem Memory.getCell_write_cells (m : Memory) (address : Nat) {cells : List Cell} {index : Nat}
    {x : Cell} (h : cells[index]? = some x) :
    (m.write address (cells.flatMap Cell.toBytes)).getCell (address + cellSize * index) = x := by
  induction cells generalizing m address index with
  | nil => cases h
  | cons y rest ih =>
      rw [List.flatMap_cons, write_append, Cell.length_toBytes]
      cases index with
      | zero =>
          cases h
          exact (getCell_congr fun other _ hother => get_write_of_lt _ _ hother).trans
            (getCell_setCell m address x)
      | succ index =>
          rw [show address + cellSize * (index + 1) = address + cellSize + cellSize * index by
            rw [Nat.mul_add]; omega]
          exact ih _ _ h

namespace Machine

variable {m n o : Machine} {left right cells : List Cell}

/-- Given cells have been appended at `here`, and nothing else has been done. -/
structure Lays (m : Machine) (cells : List Cell) (n : Machine) : Prop where
  continues : m.Continues n
  spares : m.Spares n
  dictionary : n.dictionary = m.dictionary
  here : n.space.here = m.space.here + cellSize * cells.length
  carries : m.config.systemArea ≤ m.space.here → n.Carries m.space.here cells

/-- Appending cells lays them. -/
theorem lays_of_appendCells
    (h : (do return { m with space := ← m.space.appendCells cells }) = Except.ok n) :
    m.Lays cells n := by
  obtain ⟨space, hspace, hn⟩ := bind_eq_ok.mp h
  obtain ⟨haligned, happend⟩ := DataSpace.appendCells_eq_ok.mp hspace
  obtain ⟨hroom, rfl⟩ := DataSpace.append_eq_ok.mp happend
  have hlength := Cell.length_flatMap_toBytes cells
  cases hn
  exact {
    continues := { Continues.refl m with space := ⟨rfl, Nat.le_add_right _ _, fun _ => hroom⟩ }
    spares := fun address _ hhigh => Memory.get_write_of_lt _ _ hhigh
    dictionary := rfl
    here := congrArg _ hlength
    carries := fun hlow => ⟨isAligned_ofNat.mp haligned, hlow,
      Nat.le_of_eq (congrArg _ hlength.symm), Memory.getCell_write_cells _ _⟩ }

/-- Laying some cells and then others lays them all. -/
theorem Lays.append (hleft : m.Lays left n) (hright : n.Lays right o) :
    m.Lays (left ++ right) o where
  continues := hleft.continues.trans hright.continues
  spares := hleft.spares.trans hright.spares hleft.continues
  dictionary := hright.dictionary.trans hleft.dictionary
  here := by rw [hright.here, hleft.here, List.length_append, Nat.mul_add, Nat.add_assoc]
  carries hlow := by
    refine ((hleft.carries hlow).continues hright.continues hright.spares).append ?_
    rw [← hleft.here]
    exact hright.carries (hleft.continues.config ▸ Nat.le_trans hlow hleft.continues.space.here_le)

/-- Compile an item. -/
def compileItem (m : Machine) : Item → Except Fault Machine
  | .literal x => m.compileLiteral x
  | .word p => m.compileCell (UInt64.ofNat p.token)
  | .call token => m.compileCell (UInt64.ofNat token)

/-- Compile items and then the word that returns. -/
def compileItems (m : Machine) : List Item → Except Fault Machine
  | [] => m.compileCell (UInt64.ofNat Primitive.exit.token)
  | item :: rest => do (← m.compileItem item).compileItems rest

/-- Add a colon definition and compile its items, giving its token. -/
def compileColon (m : Machine) (name : String) (items : List Item) :
    Except Fault (Nat × Machine) := do
  let (token, added) ← m.define name .nested false
  return (token, ← added.compileItems items)

/-- Compiling an item lays its code. -/
theorem compileItem_lays {item : Item} (h : m.compileItem item = .ok n) : m.Lays item.cells n := by
  cases item with
  | literal x => exact lays_of_appendCells h
  | word p => exact lays_of_appendCells h
  | call token => exact lays_of_appendCells h

/-- Compiling items lays their code and the word that returns. -/
theorem compileItems_lays {items : List Item} (h : m.compileItems items = .ok n) :
    m.Lays (items.flatMap Item.cells ++ [UInt64.ofNat Primitive.exit.token]) n := by
  induction items generalizing m with
  | nil => exact lays_of_appendCells h
  | cons item rest ih =>
      obtain ⟨next, hnext, hrest⟩ := bind_eq_ok.mp h
      rw [List.flatMap_cons, List.append_assoc]
      exact (compileItem_lays hnext).append (ih hrest)

variable {config : Config} {arguments : List String}

/-- Compiling an item is an operation of the session. -/
theorem Live.compileItem (live : Live config arguments m) {item : Item}
    (h : m.compileItem item = .ok n) : Live config arguments n := by
  have hperform : ∀ cell, m.compileCell cell = .ok n →
      (Operation.ask (.compileToken cell)).perform 0 m = some (.done () n) := by
    intro cell hcell
    change some (m.attempt (m.compileCell cell)) = _
    rw [hcell]
    rfl
  cases item with
  | word p => exact .perform _ 0 live (hperform _ h)
  | call token => exact .perform _ 0 live (hperform _ h)
  | literal x =>
      have hliteral : (Operation.ask (.compileLiteral x)).perform 0 m = some (.done () n) := by
        change some (m.attempt (m.compileLiteral x)) = _
        rw [show m.compileLiteral x = .ok n from h]
        rfl
      exact .perform _ 0 live hliteral

/-- Compiling items is a sequence of operations of the session. -/
theorem Live.compileItems (live : Live config arguments m) {items : List Item}
    (h : m.compileItems items = .ok n) : Live config arguments n := by
  induction items generalizing m with
  | nil => exact live.compileItem (show m.compileItem (.word .exit) = .ok n from h)
  | cons item rest ih =>
      obtain ⟨next, hnext, hrest⟩ := bind_eq_ok.mp h
      exact ih (live.compileItem hnext) hrest

/-- Adding a colon definition is an operation of the session. -/
theorem Live.defineColon (live : Live config arguments m) {name : String} {token : Nat}
    (h : m.define name .nested false = .ok (token, n)) : Live config arguments n := by
  have hperform : (Operation.ask (.defineColon name)).perform 0 m = some (.done token n) := by
    change some (m.attemptWith (m.define name .nested false)) = _
    rw [h]
    rfl
  exact .perform _ 0 live hperform

/-- Compiling a colon definition is a sequence of operations of the session. -/
theorem Live.compileColon (live : Live config arguments m) {name : String} {items : List Item}
    {compiled : Nat × Machine} (h : m.compileColon name items = .ok compiled) :
    Live config arguments compiled.2 := by
  obtain ⟨⟨_, added⟩, hdefine, hrest⟩ := bind_eq_ok.mp h
  obtain ⟨_, hitems, heq⟩ := bind_eq_ok.mp hrest
  cases heq
  exact (live.defineColon hdefine).compileItems hitems

/-- Adding a definition leaves the earlier ones in place. -/
theorem inPlace_of_define {colon : Colon} {name : String} {token : Nat}
    (h : m.define name .nested false = .ok (token, n)) (hcolon : colon.InPlace m) :
    colon.InPlace n := by
  obtain ⟨-, -, rfl⟩ := define_eq_ok.mp h
  obtain ⟨d, hd, haction, hbody, hcode⟩ := hcolon
  have hget := resolve_eq_ok.mp hd
  have hlt : (UInt64.ofNat colon.token).toNat < m.dictionary.size :=
    (Array.getElem?_eq_some_iff.mp hget).1
  refine ⟨d, resolve_eq_ok.mpr ?_, haction, hbody, hcode.aligned, hcode.low,
    Nat.le_trans hcode.high (le_alignUp _), hcode.cell⟩
  rw [Dictionary.get?_push, if_neg (by omega)]
  exact hget

/-- Laying cells leaves definitions in place. -/
theorem Lays.inPlace {colon : Colon} (h : m.Lays cells n) (hcolon : colon.InPlace m) :
    colon.InPlace n := by
  obtain ⟨d, hd, haction, hbody, hcode⟩ := hcolon
  obtain ⟨e, he, haction', hbody'⟩ := h.continues.resolve hd
  exact ⟨e, he, haction'.trans haction, hbody'.trans hbody, hcode.continues h.continues h.spares⟩

/-- A colon definition that has been added is named by its token. -/
theorem resolve_of_define (hwell : m.WellFormed config arguments) {name : String} {token : Nat}
    (h : m.define name .nested false = .ok (token, n)) :
    n.resolve (UInt64.ofNat token) =
      .ok
        { name := name, action := .nested, body := alignUp m.space.here, immediate := false } := by
  obtain ⟨⟨-, hsize, -⟩, rfl, rfl⟩ := define_eq_ok.mp h
  have htoken : (UInt64.ofNat m.dictionary.size).toNat = m.dictionary.size := by
    have hmaximum : config.dictionary ≤ 0x100000 := hwell.valid.dictionary.2
    have hcapacity := hwell.dictionary_capacity
    rw [UInt64.toNat_ofNat', Nat.mod_eq_of_lt (by omega)]
  rw [resolve_eq_ok, htoken, Dictionary.get?_push, if_pos rfl]

/-- A colon definition that has been compiled is in place, and so are the earlier ones. -/
theorem inPlace_of_compileColon (hwell : m.WellFormed config arguments) {name : String}
    {items : List Item} {token : Nat} (h : m.compileColon name items = .ok (token, n)) :
    (Colon.mk token (alignUp m.space.here) items).InPlace n ∧
      ∀ colon : Colon, colon.InPlace m → colon.InPlace n := by
  obtain ⟨⟨_, added⟩, hdefine, hrest⟩ := bind_eq_ok.mp h
  obtain ⟨_, hitems, heq⟩ := bind_eq_ok.mp hrest
  cases heq
  have hlays := compileItems_lays hitems
  refine ⟨?_, fun colon hcolon => hlays.inPlace (inPlace_of_define hdefine hcolon)⟩
  obtain ⟨e, he, haction, hbody⟩ := hlays.continues.resolve (resolve_of_define hwell hdefine)
  obtain ⟨-, -, rfl⟩ := define_eq_ok.mp hdefine
  have hlow := Nat.le_trans hwell.system_le (le_alignUp m.space.here)
  exact ⟨e, he, haction, hbody, hlays.carries (hwell.config_eq ▸ hlow)⟩

end Machine

/-- What has to stay the same for a definition to stay in place: its entry apart from flags, the
bytes of its code, and their belonging to the part of data space that has been handed out. -/
structure Colon.Unchanged (colon : Colon) (m n : Machine) : Prop where
  definition {d : Definition} : m.resolve (UInt64.ofNat colon.token) = .ok d →
    ∃ e, n.resolve (UInt64.ofNat colon.token) = .ok e ∧ e.action = d.action ∧ e.body = d.body
  here_le : m.space.here ≤ n.space.here
  code {position : Nat} : colon.address ≤ position →
    position < colon.address + cellSize * colon.code.length →
    n.space.memory.get position = m.space.memory.get position

/-- The machines of a session in which a family of colon definitions has been compiled, each from
items that may call the earlier ones. Whatever else the session did in between has left the
definitions unchanged. -/
inductive Machine.Compiled (config : Config) (arguments : List String) :
    Family → Machine → Prop where
  | start {m : Machine} : Live config arguments m → Compiled config arguments [] m
  | define {family : Family} {m n : Machine} {name : String} {items : List Item} {token : Nat} :
      Compiled config arguments family m → (∀ item ∈ items, family.Allows item) →
      m.compileColon name items = .ok (token, n) →
      Compiled config arguments (⟨token, alignUp m.space.here, items⟩ :: family) n
  | later {family : Family} {m n : Machine} :
      Compiled config arguments family m → Live config arguments n →
      (∀ colon ∈ family, colon.Unchanged m n) → Compiled config arguments family n

namespace Machine.Compiled

variable {config : Config} {arguments : List String} {family : Family} {m : Machine}

/-- A machine with compiled definitions belongs to the session. -/
theorem live (made : Compiled config arguments family m) : Live config arguments m := by
  induction made with
  | start live => exact live
  | define _ _ hcompile ih => exact ih.compileColon hcompile
  | later _ live _ _ => exact live

/-- Compiled definitions call only earlier ones. -/
theorem acyclic (made : Compiled config arguments family m) : family.Acyclic := by
  induction made with
  | start _ => trivial
  | define _ hallows _ ih => exact ⟨hallows, ih⟩
  | later _ _ _ ih => exact ih

/-- Compiled definitions are in place. -/
theorem inPlace (made : Compiled config arguments family m) :
    ∀ colon ∈ family, colon.InPlace m := by
  induction made with
  | start _ => exact fun colon hcolon => (nomatch hcolon)
  | define made _ hcompile ih =>
      obtain ⟨hnew, hold⟩ := inPlace_of_compileColon made.live.wellFormed hcompile
      exact List.forall_mem_cons.mpr ⟨hnew, fun colon hcolon => hold colon (ih colon hcolon)⟩
  | @later _ m n made live hunchanged ih =>
      intro colon hcolon
      obtain ⟨d, hd, haction, hbody, hcode⟩ := ih colon hcolon
      have hsame := hunchanged colon hcolon
      obtain ⟨e, he, haction', hbody'⟩ := hsame.definition hd
      have hconfig : n.config = m.config :=
        live.wellFormed.config_eq.trans made.live.wellFormed.config_eq.symm
      refine ⟨e, he, haction'.trans haction, hbody'.trans hbody, hcode.aligned, hconfig ▸ hcode.low,
        Nat.le_trans hcode.high hsame.here_le, fun {index x} hx => ?_⟩
      rw [← hcode.cell hx]
      have hindex := (List.getElem?_eq_some_iff.mp hx).1
      have hcell : cellSize * (index + 1) ≤ cellSize * colon.code.length :=
        Nat.mul_le_mul_left _ hindex
      rw [Nat.mul_add] at hcell
      exact Memory.getCell_congr fun position _ _ => hsame.code (by omega) (by omega)

/-- Compiled definitions are loaded. -/
theorem loaded (made : Compiled config arguments family m) : family.Loaded m where
  here_lt := made.live.wellFormed.here_lt_size
  size_le := made.live.wellFormed.space_size ▸ made.live.wellFormed.valid.dataSpace.2
  primitive p := by
    obtain ⟨d, hd, -, haction⟩ := made.live.wellFormed.resolve_token p
    exact ⟨d, hd, haction⟩
  colon := made.inPlace _

/-- Calls through threaded code mean the same as inlining. Executing a compiled definition ends as
the host's own way through the flat list does, with success or with the same halt, and it leaves the
same data stack, data space, dictionary, input line and console. After success the return stack and
the cursor are as before; after a halt what the return stack held before still lies below the saved
cursors of the pending calls. -/
theorem execute_eq_flat (made : Compiled config arguments family m) {token : Nat}
    (hnames : family.Names token)
    (hcursor : ∀ slot, m.cursor = some slot → slot.toNat < m.space.size)
    (havoids : family.Avoids m.cursor) (hroom : family.height token ≤ m.returns.room) :
    ∃ flat outcome : Outcome Unit, ∃ enough : Nat,
      (∀ host budget, Item.performAll host budget (family.flatten token) m = some flat) ∧
      (∀ host budget, enough ≤ budget → m.execute host budget (UInt64.ofNat token) = some outcome) ∧
      outcome.result = flat.result ∧
      (outcome.machine.data = flat.machine.data ∧ outcome.machine.space = flat.machine.space ∧
        outcome.machine.dictionary = flat.machine.dictionary ∧
        outcome.machine.lineLength = flat.machine.lineLength ∧
        outcome.machine.console = flat.machine.console) ∧
      (outcome.result = .ok () →
        outcome.machine.returns = m.returns ∧ outcome.machine.cursor = m.cursor) ∧
      m.returns.cells <:+ outcome.machine.returns.cells := by
  obtain ⟨current, hflat⟩ :=
    Item.performAll_eq (fun _ => Family.flat_of_mem_flatten made.acyclic) made.loaded
  obtain ⟨enough, done, halted, ⟨hback, hreturns⟩, hpending, hexecute⟩ :=
    Family.execute_eq_effects made.acyclic made.loaded hnames havoids hcursor hroom
  refine ⟨_, _, enough, hflat, hexecute, ?_⟩
  cases Item.effects (family.flatten token) m with
  | done _ n =>
      exact ⟨rfl, ⟨rfl, rfl, rfl, rfl, rfl⟩, fun _ => ⟨hreturns, hback⟩, hreturns ▸ List.suffix_rfl⟩
  | halted reason n => exact ⟨rfl, ⟨rfl, rfl, rfl, rfl, rfl⟩, fun h => (nomatch h), hpending⟩

/-- The definition that calls another one is compiled in a new session and executed with an unset
cursor. -/
theorem execute_eq_flat_double :
    ∃ (family : Family) (m : Machine), Compiled {} ["forth"] family m ∧
      family.flatten 78 = [.literal 5, .word .dup, .word .plus] ∧ family.height 78 = 2 ∧
      ∃ outcome enough, (∀ host budget, enough ≤ budget → m.execute host budget 78 = some outcome) ∧
        outcome.result = .ok () ∧ outcome.machine.data.cells = [10] ∧
        outcome.machine.cursor = none := by
  have hsession : ((Machine.boot {} ["forth"] Console.null {}).toOption.any fun m =>
      (m.compileColon "DOUBLE" [.word .dup, .word .plus]).toOption.any fun double =>
        (double.2.compileColon "TEN" [.literal 5, .call 77]).toOption.any fun ten =>
          double.1 == 77 && ten.1 == 78 && ten.2.cursor == none && ten.2.returns.room == 256 &&
            (Item.performAll (fun _ _ => none) 0
              [.literal 5, .word .dup, .word .plus] ten.2).endsWith none
              (·.data.cells == [10])) = true := by decide +kernel
  obtain ⟨m, hboot, hcompile⟩ := exists_ok_of_any hsession
  obtain ⟨⟨double, n⟩, hfirst, hcompile⟩ := exists_ok_of_any hcompile
  obtain ⟨⟨ten, o⟩, hsecond, hchecks⟩ := exists_ok_of_any hcompile
  simp only [Bool.and_eq_true, beq_iff_eq] at hchecks
  obtain ⟨⟨⟨⟨rfl, rfl⟩, hcursor⟩, hroom⟩, hflat⟩ := hchecks
  obtain ⟨_, f, hdone, hcells⟩ := Run.exists_done hflat
  have made : Compiled {} ["forth"] [⟨78, alignUp n.space.here, [.literal 5, .call 77]⟩,
      ⟨77, alignUp m.space.here, [.word .dup, .word .plus]⟩] o := by
    refine .define (.define (.start (.boot hboot)) ?_ hfirst) ?_ hsecond
    · simp only [List.forall_mem_cons]
      exact ⟨rfl, rfl, fun _ h => (nomatch h)⟩
    · simp only [List.forall_mem_cons]
      exact ⟨trivial, ⟨_, List.mem_cons_self, rfl⟩, fun _ h => (nomatch h)⟩
  obtain ⟨flat, outcome, enough, hperform, hexecute, hresult, ⟨hdata, -⟩, hback, -⟩ :=
    made.execute_eq_flat (show Family.Names _ 78 from ⟨_, List.mem_cons_self, rfl⟩)
      (by rw [hcursor]; exact fun _ h => (nomatch h))
        (by rw [hcursor]; exact fun _ _ _ _ _ h => (nomatch h))
      (by rw [hroom]; exact show 2 ≤ 256 by decide)
  have hten : flat.result = .ok () ∧ flat.machine.data.cells = [10] := by
    obtain rfl : flat = .done () f := Option.some.inj ((hperform _ 0).symm.trans hdone)
    exact ⟨rfl, beq_iff_eq.mp hcells⟩
  have hok : outcome.result = .ok () := hresult.trans hten.1
  exact ⟨_, o, made, rfl, rfl, outcome, enough, hexecute, hok, by rw [hdata]; exact hten.2,
    (hback hok).2.trans hcursor⟩

end Machine.Compiled

end ThreadedForth
