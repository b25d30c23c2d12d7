import ThreadedForth.Proofs.Colon
import ThreadedForth.Proofs.Live
import ThreadedForth.Proofs.Threading

/-!
# Calls through threaded code and inlining

A machine that has loaded a family of colon definitions holds their code where the dictionary says.
Running one of them as threaded code then does what its flat list does, call by call and return by
return.
-/

namespace ThreadedForth

/-- The dictionary knows a definition by its token, and data space holds its code. -/
def Colon.InPlace (colon : Colon) (m : Machine) : Prop :=
  ∃ d, m.resolve (UInt64.ofNat colon.token) = .ok d ∧ d.action = .nested ∧ d.body = colon.address ∧
    m.Carries colon.address colon.code

/-- A machine whose dictionary knows the primitives and in which the given definitions are in
place. -/
structure Family.Loaded (family : Family) (m : Machine) : Prop where
  here_lt : m.space.here < m.space.size
  size_le : m.space.size ≤ Area.dataSpace.maximum
  primitive (p : Primitive) : ∃ d, m.resolve (UInt64.ofNat p.token) = .ok d ∧
    d.action = .primitive p
  colon {colon : Colon} : colon ∈ family → colon.InPlace m

/-- A definition that a token names before is, apart from flags, named by it afterwards. -/
theorem Machine.Continues.resolve {m n : Machine} (h : m.Continues n) {token : Cell}
    {d : Definition} (hd : m.resolve token = .ok d) :
    ∃ e, n.resolve token = .ok e ∧ e.action = d.action ∧ e.body = d.body := by
  obtain ⟨e, he, -, haction, hbody⟩ := h.dictionary.get? (resolve_eq_ok.mp hd)
  exact ⟨e, resolve_eq_ok.mpr he, haction, hbody⟩

namespace Family.Loaded

variable {family : Family} {colon : Colon} {m n : Machine}

/-- Where the machine is in threaded code does not matter. -/
theorem withControl (h : Loaded family m) (k : Control) : Loaded family (m.withControl k) where
  here_lt := h.here_lt
  size_le := h.size_le
  primitive := h.primitive
  colon hcolon := by
    obtain ⟨d, hd, haction, hbody, hcode⟩ := h.colon hcolon
    exact ⟨d, hd, haction, hbody, hcode.withControl k⟩

/-- A family stays loaded while the code in data space is spared. -/
theorem continues (h : Loaded family m) (hcontinues : m.Continues n) (hspares : m.Spares n) :
    Loaded family n where
  here_lt := hcontinues.space.here_lt h.here_lt
  size_le := hcontinues.space.size ▸ h.size_le
  primitive p := by
    obtain ⟨d, hd, haction⟩ := h.primitive p
    obtain ⟨e, he, haction', -⟩ := hcontinues.resolve hd
    exact ⟨e, he, haction'.trans haction⟩
  colon hcolon := by
    obtain ⟨d, hd, haction, hbody, hcode⟩ := h.colon hcolon
    obtain ⟨e, he, haction', hbody'⟩ := hcontinues.resolve hd
    exact ⟨e, he, haction'.trans haction, hbody'.trans hbody, hcode.continues hcontinues hspares⟩

/-- The earlier members of a loaded family are loaded. -/
theorem of_cons (h : Loaded (colon :: family) m) : Loaded family m :=
  { h with colon := fun hcolon => h.colon (List.mem_cons_of_mem _ hcolon) }

/-- The first of some cells is read from their address. -/
theorem fetch {address : Nat} {x : Cell} {cells : List Cell} (h : Loaded family m)
    (hcode : m.Carries address (x :: cells)) : m.space.fetch (UInt64.ofNat address) = .ok x :=
  hcode.fetch (Nat.le_of_lt h.here_lt) h.size_le

end Family.Loaded

/-- A cursor outside the code of a family. -/
def Family.Avoids (family : Family) (cursor : Option Cell) : Prop :=
  ∀ colon ∈ family, ∀ position, colon.address ≤ position →
    position < colon.address + cellSize * colon.code.length → cursor ≠ some (UInt64.ofNat position)

namespace Machine

variable {stop cursor : Option Cell} {returns : Stack .returns} {m : Machine}

/-- Code that does what an outcome tells does so whatever the control state of that outcome is. -/
theorem follows_mapMachine {outcome : Outcome Unit} {k : Control} :
    Follows stop m cursor returns (outcome.mapMachine (·.withControl k)) ↔
      Follows stop m cursor returns outcome := by
  cases outcome with
  | done _ n => exact Iff.rfl
  | halted reason n => exact Iff.rfl

/-- Code that does what an outcome tells may be followed by code for what comes next. -/
theorem Follows.andThen {outcome : Outcome Unit} {next : Effect} {cursor' : Option Cell}
    {returns' : Stack .returns} (h : Follows stop m cursor returns outcome)
    (hpending : returns'.cells <:+ returns.cells) (hnext : ∀ n current, outcome = .done () n →
      Follows stop (n.withControl ⟨cursor, returns, current⟩) cursor' returns' (next n)) :
    Follows stop m cursor' returns' (outcome.andThen next) := by
  cases outcome with
  | done _ n =>
      obtain ⟨current, hreaches⟩ := h
      exact .of_reaches hreaches (hnext n current rfl)
  | halted reason n =>
      obtain ⟨k, hk, hhalt⟩ := h
      exact ⟨k, hpending.trans hk, hhalt⟩

end Machine

open Machine

namespace Family

variable {stop : Option Cell} {family earlier : Family} {m : Machine} {tail : List Cell}
  {address : Nat}

/-- Called with a saved cursor, a definition does what its flat list does and returns. -/
def Returns (stop : Option Cell) (family : Family) (token : Nat) : Prop :=
  ∀ (m : Machine) (d : Definition) (saved : Cell) (pushed : Stack .returns) (current : Option Nat),
    Loaded family m → m.resolve (UInt64.ofNat token) = .ok d →
    height family token ≤ m.returns.room →
    m.returns.push saved = .ok pushed →
    Follows stop (m.withControl ⟨some (UInt64.ofNat d.body), pushed, current⟩)
      (restoreCursor saved) m.returns
      (Item.effects (flatten family token) m)

/-- The address behind a cell is the same as a number and as a cell. -/
theorem ofNat_add_cellSize (position : Nat) :
    UInt64.ofNat (position + cellSize) = UInt64.ofNat position + 8 :=
  UInt64.ofNat_add _ _

/-- The code of a literal pushes it and leads behind that code. -/
theorem literal_follows {x : Cell} (hloaded : Loaded earlier m)
    (hcode : m.Carries address (UInt64.ofNat Primitive.literal.token :: x :: tail))
    (hcursor : m.cursor = some (UInt64.ofNat address)) (hstop : m.cursor ≠ stop) :
    Follows stop m (some (UInt64.ofNat (address + cellSize + cellSize))) m.returns
      (Effect.change (·.push x) m) := by
  obtain ⟨d, hd, haction⟩ := hloaded.primitive .literal
  have hoperand := hloaded.fetch hcode.tail
  rw [ofNat_add_cellSize] at hoperand
  refine .of_step hstop ⟨?_, rfl⟩ rfl
    (fun host => step_of_literal host hcursor (hloaded.fetch hcode) hd haction hoperand)
  rw [ofNat_add_cellSize, ofNat_add_cellSize]

/-- The code of a plain primitive does what the primitive does and leads behind that code. -/
theorem word_follows {p : Primitive} {effect : Effect} (heffect : p.effect? = some effect)
    (hoblivious : effect.Oblivious) (hloaded : Loaded earlier m)
    (hcode : m.Carries address (UInt64.ofNat p.token :: tail))
    (hcursor : m.cursor = some (UInt64.ofNat address)) (hstop : m.cursor ≠ stop) :
    Follows stop m (some (UInt64.ofNat (address + cellSize))) m.returns (effect m) := by
  obtain ⟨d, hd, haction⟩ := hloaded.primitive p
  refine .of_step hstop ⟨?_, rfl⟩ rfl
    (fun host => step_of_oblivious host hcursor (hloaded.fetch hcode) hd haction heffect hoblivious)
  rw [ofNat_add_cellSize]

/-- The code of a call does what the called definition's flat list does and leads behind that
code. -/
theorem call_follows {token : Nat} (hnames : Names earlier token)
    (hreturns : Returns stop earlier token) (hloaded : Loaded earlier m)
    (hcode : m.Carries address (UInt64.ofNat token :: tail))
    (hcursor : m.cursor = some (UInt64.ofNat address)) (hstop : m.cursor ≠ stop)
    (hroom : height earlier token ≤ m.returns.room) :
    Follows stop m (some (UInt64.ofNat (address + cellSize))) m.returns
      (Item.effects (flatten earlier token) m) := by
  obtain ⟨colon, hcolon, rfl⟩ := hnames
  obtain ⟨d, hd, haction, -, -⟩ := hloaded.colon hcolon
  have hpos : 0 < m.returns.room := Nat.lt_of_lt_of_le (height_pos ⟨colon, hcolon, rfl⟩) hroom
  obtain ⟨pushed, hpush⟩ : ∃ pushed, m.returns.push (UInt64.ofNat address + 8) = .ok pushed :=
    ⟨⟨_, m.returns.room - 1⟩, Stack.push_eq_ok.mpr ⟨rfl, Nat.sub_add_cancel hpos⟩⟩
  have hreturn :=
    hreturns m d _ pushed (some (UInt64.ofNat colon.token).toNat) hloaded hd hroom hpush
  have hbehind : address + cellSize < m.space.size :=
    Nat.lt_of_le_of_lt (Nat.le_trans (Nat.le_add_right _ _) hcode.tail.high) hloaded.here_lt
  rw [← ofNat_add_cellSize, restoreCursor_of_lt (by rwa [toNat_ofNat_of_le hbehind hloaded.size_le])
    hloaded.size_le] at hreturn
  exact .of_reaches
    (.single hstop (fun host => step_of_call host hcursor (hloaded.fetch hcode) hd haction hpush))
      hreturn

/-- The code of one item does what the item's flat list does, and leads behind that code. -/
theorem item_follows {item : Item} (hallows : Allows earlier item)
    (hreturns : ∀ token, Names earlier token → Returns stop earlier token)
    (hloaded : Loaded earlier m) (hcode : m.Carries address (item.cells ++ tail))
    (hcursor : m.cursor = some (UInt64.ofNat address)) (hstop : m.cursor ≠ stop)
    (hroom : heightItem earlier item ≤ m.returns.room) :
    Follows stop m (some (UInt64.ofNat (address + cellSize * item.cells.length))) m.returns
      (Item.effects (flattenItem earlier item) m) := by
  cases item with
  | literal x =>
      change Follows stop m _ m.returns (Item.effects [.literal x] m)
      rw [Item.effects_singleton]
      exact literal_follows hloaded hcode hcursor hstop
  | word p =>
      obtain ⟨effect, heffect, hcontrol, -⟩ := Item.effect?_of_isPlain hallows
      change Follows stop m _ m.returns (Item.effects [.word p] m)
      rw [Item.effects_singleton, Item.effect, heffect]
      exact word_follows heffect
        (Primitive.effect_oblivious heffect hcontrol) hloaded hcode hcursor hstop
  | call token =>
      exact call_follows hallows (hreturns token hallows) hloaded hcode hcursor hstop hroom

/-- The code of items does what their flat list does, and leads behind that code. -/
theorem items_follow {items : List Item} (hacyclic : Acyclic earlier)
    (hallows : ∀ item ∈ items, Allows earlier item)
    (hreturns : ∀ token, Names earlier token → Returns stop earlier token)
    (hloaded : Loaded earlier m) (hcode : m.Carries address (items.flatMap Item.cells ++ tail))
    (hcursor : m.cursor = some (UInt64.ofNat address))
    (hstop : ∀ position, address ≤ position →
    position < address + cellSize * (items.flatMap Item.cells).length →
      some (UInt64.ofNat position) ≠ stop)
    (hroom : ∀ item ∈ items, heightItem earlier item ≤ m.returns.room) :
    Follows stop m (some (UInt64.ofNat (address + cellSize * (items.flatMap Item.cells).length)))
      m.returns
      (Item.effects (items.flatMap (flattenItem earlier)) m) := by
  induction items generalizing m address with
  | nil =>
      refine ⟨m.current, ?_⟩
      change Reaches stop m (m.withControl ⟨some (UInt64.ofNat address), m.returns, m.current⟩)
      rw [← hcursor]
      exact .refl m
  | cons item rest ih =>
      obtain ⟨hitem, hrest⟩ := List.forall_mem_cons.mp hallows
      obtain ⟨hroomItem, hroomRest⟩ := List.forall_mem_cons.mp hroom
      rw [List.flatMap_cons, List.append_assoc] at hcode
      rw [List.flatMap_cons, List.length_append, Nat.mul_add] at hstop ⊢
      rw [List.flatMap_cons, Item.effects_append]
      have hpos : 0 < cellSize * item.cells.length := Nat.mul_pos (by decide) item.length_cells_pos
      have hfirst : m.cursor ≠ stop := hcursor ▸ hstop address (Nat.le_refl _) (by omega)
      refine (item_follows hitem hreturns hloaded hcode hcursor hfirst hroomItem).andThen
        List.suffix_rfl
        fun n current hdone => ?_
      obtain ⟨hcontinues, hspares⟩ := Item.effects_continues
        (fun _ => flat_of_mem_flattenItem hitem fun _ => flat_of_mem_flatten hacyclic) hdone
      have hfollows := ih hrest
        ((hloaded.continues hcontinues hspares).withControl
          ⟨some (UInt64.ofNat (address + cellSize * item.cells.length)), m.returns, current⟩)
        ((hcode.drop.continues hcontinues hspares).withControl _) rfl
        (fun position hlow hhigh => hstop position (by omega) (by omega)) hroomRest
      rw [Item.effects_oblivious (flat_of_mem_flatMap hacyclic hrest), follows_mapMachine,
        Nat.add_assoc] at hfollows
      exact hfollows

/-- Every member of a loaded family returns from a call, having done what its flat list does. -/
theorem returns_of_names (hacyclic : Acyclic family) (havoids : Avoids family stop) {token : Nat}
    (hnames : Names family token) : Returns stop family token := by
  -- Along the family: a definition calls only earlier ones, which return by induction.
  induction family generalizing token with
  | nil => obtain ⟨_, hmem, _⟩ := hnames; cases hmem
  | cons colon earlier ih =>
      have havoids' : Avoids earlier stop :=
        fun member hmember => havoids member (List.mem_cons_of_mem _ hmember)
      intro m d saved pushed current hloaded hd hroom hpush
      by_cases htoken : colon.token = token
      · subst htoken
        obtain ⟨e, he, -, hbody, hcode⟩ := hloaded.colon List.mem_cons_self
        cases hd.symm.trans he
        rw [hbody, flatten_cons_self]
        have hoblivious := Item.effects_oblivious (flat_of_mem_flatMap hacyclic.2 hacyclic.1)
        have hcells : cellSize * colon.code.length =
            cellSize * (colon.items.flatMap Item.cells).length + cellSize := by
          rw [Colon.code, List.length_append, Nat.mul_add]
          rfl
        have hpushed := (Stack.push_eq_ok.mp hpush).2
        have hfollows := items_follow hacyclic.2 hacyclic.1 (fun _ => ih hacyclic.2 havoids')
          (hloaded.of_cons.withControl ⟨some (UInt64.ofNat colon.address), pushed, current⟩)
          (hcode.withControl _) rfl
          (fun position hlow hhigh heq => havoids colon List.mem_cons_self position hlow
            (by omega) heq.symm)
          (fun item hitem => by
            have hlt : heightItem earlier item <
              height (colon :: earlier) colon.token := heightItem_lt hitem
            change _ ≤ pushed.room
            omega)
        rw [hoblivious, follows_mapMachine] at hfollows
        rw [← Outcome.andThen_done (Item.effects _ m)]
        have hpending : m.returns.cells <:+ pushed.cells := by
          rw [(Stack.push_eq_ok.mp hpush).1]
          exact List.suffix_cons _ _
        refine hfollows.andThen hpending fun n current' hdone => ?_
        obtain ⟨hcontinues, hspares⟩ :=
          Item.effects_continues (flat_of_mem_flatMap hacyclic.2 hacyclic.1) hdone
        have hend := (hloaded.continues hcontinues hspares).withControl ⟨some (UInt64.ofNat
          (colon.address + cellSize * (colon.items.flatMap Item.cells).length)), pushed, current'⟩
        obtain ⟨exit, hexit, hexitAction⟩ := hend.primitive .exit
        have hfetch := hend.fetch ((hcode.drop.continues hcontinues hspares).withControl _)
        refine ⟨_, .single ?_ (fun host => step_of_exit host rfl hfetch hexit hexitAction
          (Stack.pop_eq_ok.mpr (Stack.push_eq_ok.mp hpush)))⟩
        exact fun heq => havoids colon List.mem_cons_self _ (Nat.le_add_right _ _)
          (by rw [hcells]; exact Nat.add_lt_add_left (Nat.lt_add_of_pos_right (by decide)) _)
            heq.symm
      · rw [height_cons_of_ne htoken] at hroom
        rw [flatten_cons_of_ne htoken]
        exact ih hacyclic.2 havoids'
          (names_of_cons hnames htoken) m d saved pushed current hloaded.of_cons hd hroom
          hpush

/-- Executing a member of a loaded family does what its flat list does. After success the cursor and
the return stack are as before, and after a halt what the return stack held before is still
there. -/
theorem execute_eq_effects (hacyclic : Acyclic family) (hloaded : Loaded family m) {token : Nat}
    (hnames : Names family token) (havoids : Avoids family m.cursor)
    (hcursor : ∀ slot, m.cursor = some slot → slot.toNat < m.space.size)
    (hroom : height family token ≤ m.returns.room) :
    ∃ enough done halted, (done.cursor = m.cursor ∧ done.returns = m.returns) ∧
      m.returns.cells <:+ halted.returns.cells ∧ ∀ host budget, enough ≤ budget →
      m.execute host budget (UInt64.ofNat token) =
        some ((Item.effects (flatten family token) m).withControls done halted) := by
  obtain ⟨colon, hcolon, rfl⟩ := id hnames
  obtain ⟨d, hd, haction, -, -⟩ := hloaded.colon hcolon
  obtain ⟨pushed, hpush⟩ : ∃ pushed, m.returns.push (saveCursor m.cursor) = .ok pushed :=
    ⟨⟨_, m.returns.room - 1⟩, Stack.push_eq_ok.mpr
      ⟨rfl, Nat.sub_add_cancel (Nat.lt_of_lt_of_le (height_pos hnames) hroom)⟩⟩
  have hfollows := returns_of_names hacyclic havoids hnames m d _ pushed
    (some (UInt64.ofNat colon.token).toNat)
    hloaded hd hroom hpush
  have hrestore : restoreCursor (saveCursor m.cursor) = m.cursor := by
    cases hentry : m.cursor with
    | none => rfl
    | some slot => exact restoreCursor_of_lt (hcursor slot hentry) hloaded.size_le
  rw [hrestore] at hfollows
  cases houtcome : Item.effects (flatten family colon.token) m with
  | done _ n =>
      rw [houtcome] at hfollows
      obtain ⟨current, hreaches⟩ := hfollows
      obtain ⟨count, hcount⟩ := hreaches.stepUntil_eq
      refine ⟨count, ⟨m.cursor, m.returns, current⟩, m.control, ⟨rfl, rfl⟩, List.suffix_rfl,
        fun host budget hbudget => ?_⟩
      have hback : (n.withControl ⟨m.cursor, m.returns, current⟩).cursor = m.cursor := rfl
      rw [execute_of_nested host budget hd haction hpush, ← Nat.sub_add_cancel hbudget, hcount]
      exact stepUntil_of_cursor hback host _
  | halted reason n =>
      rw [houtcome] at hfollows
      obtain ⟨k, hpending, hhalt⟩ := hfollows
      obtain ⟨count, hcount⟩ := hhalt.stepUntil_eq
      refine ⟨count, m.control, k, ⟨rfl, rfl⟩, hpending, fun host budget hbudget => ?_⟩
      rw [execute_of_nested host budget hd haction hpush, ← Nat.sub_add_cancel hbudget, hcount]
      rfl

end Family

namespace Item

/-- What the host does for an item: it pushes a literal and executes a word. -/
def perform (host : HostRunner) (budget : Nat) : Item → Machine → Run Unit
  | .literal x => Request.perform host budget (.push x)
  | .word p => Request.perform host budget (.execute (UInt64.ofNat p.token))
  | .call token => Request.perform host budget (.execute (UInt64.ofNat token))

/-- What the host does for items one after the other, up to the first halt. -/
def performAll (host : HostRunner) (budget : Nat) : List Item → Machine → Run Unit
  | [], m => some (.done () m)
  | item :: rest, m =>
      match item.perform host budget m with
      | some (.done () n) => performAll host budget rest n
      | stopped => stopped

variable {family : Family} {m : Machine}

/-- Performing an item of a flat list does what the item does and leaves cursor and return stack
alone. -/
theorem Flat.perform_eq {item : Item} (hflat : item.Flat) (hloaded : family.Loaded m) :
    ∃ current, ∀ host budget, item.perform host budget m =
      some ((item.effect m).mapMachine (·.withControl ⟨m.cursor, m.returns, current⟩)) := by
  cases item with
  | literal x =>
      refine ⟨m.current, fun host budget => ?_⟩
      change some (m.attempt (m.push x)) =
        some ((m.attempt (m.push x)).mapMachine (·.withControl m.control))
      unfold Machine.push
      cases m.data.push x with
      | ok data => rfl
      | error fault => rfl
  | word p =>
      obtain ⟨effect, heffect, hcontrol, -⟩ := effect?_of_isPlain hflat
      obtain ⟨d, hd, haction⟩ := hloaded.primitive p
      refine ⟨some (UInt64.ofNat p.token).toNat, fun host budget => ?_⟩
      rw [Item.effect, heffect]
      exact execute_of_oblivious host budget hd haction heffect
        (Primitive.effect_oblivious heffect hcontrol)
  | call token => exact hflat.elim

/-- Performing a flat list does what the list does and leaves cursor and return stack alone. -/
theorem performAll_eq {items : List Item} (hflat : ∀ item ∈ items, item.Flat)
    (hloaded : family.Loaded m) :
    ∃ current, ∀ host budget, performAll host budget items m =
      some ((effects items m).mapMachine (·.withControl ⟨m.cursor, m.returns, current⟩)) := by
  induction items generalizing m with
  | nil => exact ⟨m.current, fun _ _ => rfl⟩
  | cons item rest ih =>
      obtain ⟨hitem, hrest⟩ := List.forall_mem_cons.mp hflat
      obtain ⟨current, hperform⟩ := hitem.perform_eq hloaded
      cases hdone : item.effect m with
      | halted reason n =>
          refine ⟨current, fun host budget => ?_⟩
          rw [performAll, hperform, effects, hdone]
          rfl
      | done _ n =>
          obtain ⟨hcontinues, hspares⟩ := hitem.continues hdone
          obtain ⟨current', hperform'⟩ := ih hrest
            ((hloaded.continues hcontinues hspares).withControl ⟨m.cursor, m.returns, current⟩)
          refine ⟨current', fun host budget => ?_⟩
          rw [performAll, hperform, hdone, effects, hdone]
          change performAll host budget rest (n.withControl ⟨m.cursor, m.returns, current⟩) = _
          rw [hperform', effects_oblivious hrest]
          change _ = some ((effects rest n).mapMachine _)
          cases effects rest n with
          | done _ o => rfl
          | halted reason o => rfl

end Item

end ThreadedForth
