import ThreadedForth.Proofs.CodeFrame
import ThreadedForth.Proofs.Control

/-!
# Colon definitions and their flat lists

A colon definition is compiled from a list of items: literals, primitives, and calls of definitions
made earlier. Replacing every call by the items of the called definition, again and again, gives a
flat list without calls.

The primitives that may occur are those that depend neither on where the machine is in threaded code
nor on the time, and that cannot overwrite the code that is being run. What a flat list does is
therefore oblivious of control, and leaves all code in place.
-/

namespace ThreadedForth

/-- What a colon definition is compiled from. A call is given by the token of the called
definition. -/
inductive Item where
  | literal (x : Cell)
  | word (p : Primitive)
  | call (token : Nat)

/-- A primitive that may be part of a flat list: it does not use the control state, does not store
at an address from the stack, and does not read the clock. -/
def Primitive.isPlain (p : Primitive) : Bool :=
  !p.usesControl && !p.stores && !(p == .timeAndDate || p == .utcTimeAndDate)

namespace Item

/-- The cells that an item is compiled to. -/
def cells : Item → List Cell
  | .literal x => [UInt64.ofNat Primitive.literal.token, x]
  | .word p => [UInt64.ofNat p.token]
  | .call token => [UInt64.ofNat token]

/-- Every item is compiled to something. -/
theorem length_cells_pos (item : Item) : 0 < item.cells.length := by
  cases item <;> exact Nat.succ_pos _

/-- An item of a flat list. -/
def Flat : Item → Prop
  | .literal _ => True
  | .word p => p.isPlain = true
  | .call _ => False

end Item

/-- A colon definition with its token, the address of its code, and the items it was compiled
from. -/
structure Colon where
  token : Nat
  address : Nat
  items : List Item

namespace Colon

/-- The code of a definition: that of its items one after the other, and the word that returns. -/
def code (colon : Colon) : List Cell :=
  colon.items.flatMap Item.cells ++ [UInt64.ofNat Primitive.exit.token]

end Colon

/-- Colon definitions, newest first. -/
abbrev Family := List Colon

namespace Family

/-- A token that names a member of the family. -/
def Names (family : Family) (token : Nat) : Prop := ∃ colon ∈ family, colon.token = token

/-- A token of a member other than the newest one names an earlier one. -/
theorem names_of_cons {colon : Colon} {earlier : Family} {token : Nat}
    (h : Names (colon :: earlier) token) (hne : colon.token ≠ token) : Names earlier token := by
  obtain ⟨member, hmember, htoken⟩ := h
  rcases List.mem_cons.mp hmember with rfl | hearlier
  · exact absurd htoken hne
  · exact ⟨member, hearlier, htoken⟩

/-- An item that may be compiled after the given definitions: a flat one, or a call of one of
them. -/
def Allows (family : Family) : Item → Prop
  | .call token => family.Names token
  | item => item.Flat

/-- Every definition calls only definitions made earlier. -/
def Acyclic : Family → Prop
  | [] => True
  | colon :: earlier => (∀ item ∈ colon.items, Allows earlier item) ∧ Acyclic earlier

/-- The flat list of a definition. -/
def flatten : Family → Nat → List Item
  | [], _ => []
  | colon :: earlier, token =>
      if colon.token = token then
        colon.items.flatMap fun
          | .call called => flatten earlier called
          | item => [item]
      else flatten earlier token

/-- The flat list of an item. -/
def flattenItem (family : Family) : Item → List Item
  | .call token => family.flatten token
  | item => [item]

/-- The height of a definition's call tree; a definition without calls has height one. -/
def height : Family → Nat → Nat
  | [], _ => 0
  | colon :: earlier, token =>
      if colon.token = token then
        (colon.items.map fun
          | .call called => height earlier called
          | _ => 0).foldr max 0 + 1
      else height earlier token

/-- The height of the call tree below an item. -/
def heightItem (family : Family) : Item → Nat
  | .call token => family.height token
  | _ => 0

variable {family earlier : Family} {colon : Colon} {token : Nat}

/-- The flat list of the definition made last is that of its items. -/
theorem flatten_cons_self :
    flatten (colon :: earlier) colon.token = colon.items.flatMap (flattenItem earlier) := by
  rw [flatten, if_pos rfl]
  rfl

/-- The flat list of another definition was there before. -/
theorem flatten_cons_of_ne (h : colon.token ≠ token) :
    flatten (colon :: earlier) token = flatten earlier token := by
  rw [flatten, if_neg h]

/-- The height of the definition made last is above that of each of its items. -/
theorem heightItem_lt {item : Item} (hitem : item ∈ colon.items) :
    heightItem earlier item < height (colon :: earlier) colon.token := by
  have hmax : ∀ items : List Item, item ∈ items →
      heightItem earlier item ≤ (items.map (heightItem earlier)).foldr max 0 := by
    intro items hmem
    induction items with
    | nil => cases hmem
    | cons first rest ih =>
        rw [List.map_cons, List.foldr_cons]
        rcases List.mem_cons.mp hmem with rfl | hrest
        · exact Nat.le_max_left _ _
        · exact Nat.le_trans (ih hrest) (Nat.le_max_right _ _)
  rw [height, if_pos rfl]
  exact Nat.lt_succ_of_le (hmax _ hitem)

/-- The height of another definition was the same before. -/
theorem height_cons_of_ne (h : colon.token ≠ token) :
    height (colon :: earlier) token = height earlier token := by
  rw [height, if_neg h]

/-- A definition has at least height one. -/
theorem height_pos (h : Names family token) : 0 < height family token := by
  induction family with
  | nil => obtain ⟨_, hmem, _⟩ := h; cases hmem
  | cons colon earlier ih =>
      by_cases htoken : colon.token = token
      · rw [height, if_pos htoken]
        exact Nat.succ_pos _
      · rw [height_cons_of_ne htoken]
        exact ih (names_of_cons h htoken)

end Family

/-- Go on after success. -/
def Outcome.andThen (outcome : Outcome Unit) (next : Effect) : Outcome Unit :=
  match outcome with
  | .done () m => next m
  | .halted reason m => .halted reason m

/-- Going on without doing anything changes nothing. -/
@[simp] theorem Outcome.andThen_done (outcome : Outcome Unit) :
    outcome.andThen (.done ()) = outcome := by
  cases outcome with
  | done _ m => rfl
  | halted reason m => rfl

namespace Item

/-- What an item of a flat list does. -/
def effect : Item → Effect
  | .literal x => Effect.change (·.push x)
  | .word p => p.effect?.getD (.done ())
  | .call _ => .done ()

/-- What the items of a flat list do one after the other. -/
def effects : List Item → Machine → Outcome Unit
  | [], m => .done () m
  | item :: rest, m => (item.effect m).andThen (effects rest)

/-- A list of one item does what the item does. -/
theorem effects_singleton (item : Item) (m : Machine) : effects [item] m = item.effect m :=
  (item.effect m).andThen_done

/-- The effects of two lists are those of the first list and then of the second. -/
theorem effects_append (left right : List Item) (m : Machine) :
    effects (left ++ right) m = (effects left m).andThen (effects right) := by
  induction left generalizing m with
  | nil => rfl
  | cons item rest ih =>
      rw [List.cons_append, effects, effects]
      cases item.effect m with
      | done _ n => exact ih n
      | halted reason n => rfl

variable {m n : Machine} {item : Item} {items : List Item}

/-- A plain primitive has an effect of its own. -/
theorem effect?_of_isPlain {p : Primitive} (h : p.isPlain = true) :
    ∃ effect, p.effect? = some effect ∧ p.usesControl = false ∧ p.stores = false := by
  simp only [Primitive.isPlain, Bool.and_eq_true, Bool.not_eq_true'] at h
  obtain ⟨⟨hcontrol, hstores⟩, -⟩ := h
  cases heffect : p.effect? with
  | some effect => exact ⟨effect, rfl, hcontrol, hstores⟩
  | none => cases p <;> cases heffect; cases hcontrol

/-- An item of a flat list is oblivious of control. -/
theorem Flat.oblivious (h : item.Flat) : item.effect.Oblivious := by
  cases item with
  | literal x => exact Effect.change_oblivious fun m k => replace_oblivious m k m.data x
  | word p =>
      obtain ⟨effect, heffect, hcontrol, -⟩ := effect?_of_isPlain h
      rw [Item.effect, heffect]
      exact Primitive.effect_oblivious heffect hcontrol
  | call token => exact h.elim

/-- A flat list is oblivious of control. -/
theorem effects_oblivious (h : ∀ item ∈ items, item.Flat) : Effect.Oblivious (effects items) := by
  induction items with
  | nil => exact fun _ _ => rfl
  | cons item rest ih =>
      intro m k
      obtain ⟨hitem, hrest⟩ := List.forall_mem_cons.mp h
      rw [effects, effects, hitem.oblivious m k]
      cases item.effect m with
      | done _ n => exact ih hrest n k
      | halted reason n => rfl

/-- An item of a flat list continues the machine and spares the code in it. -/
theorem Flat.continues (h : item.Flat) (hdone : item.effect m = .done () n) :
    m.Continues n ∧ m.Spares n := by
  cases item with
  | literal x =>
      have hsteady := Effect.change_steady (fun m => m.push_steady x) m
      have hspares : m.Spares (Effect.change (·.push x) m).machine :=
        Effect.change_spares (Machine.sparing_data _)
      rw [Item.effect] at hdone
      rw [hdone] at hsteady hspares
      exact ⟨hsteady, hspares⟩
  | word p =>
      obtain ⟨effect, heffect, -, hstores⟩ := effect?_of_isPlain h
      have hsteady := Primitive.effect_steady heffect m
      have hspares := Primitive.effect_spares heffect hstores m
      rw [Item.effect, heffect, Option.getD_some] at hdone
      rw [hdone] at hsteady hspares
      exact ⟨hsteady, hspares⟩
  | call token => exact h.elim

/-- A flat list continues the machine and spares the code in it. -/
theorem effects_continues (h : ∀ item ∈ items, item.Flat) (hdone : effects items m = .done () n) :
    m.Continues n ∧ m.Spares n := by
  induction items generalizing m with
  | nil => cases hdone; exact ⟨.refl _, .of_eq rfl⟩
  | cons item rest ih =>
      obtain ⟨hitem, hrest⟩ := List.forall_mem_cons.mp h
      rw [effects] at hdone
      cases hfirst : item.effect m with
      | done _ o =>
          rw [hfirst] at hdone
          obtain ⟨hcontinues, hspares⟩ := hitem.continues hfirst
          obtain ⟨hcontinues', hspares'⟩ := ih hrest hdone
          exact ⟨hcontinues.trans hcontinues', hspares.trans hspares' hcontinues⟩
      | halted reason o => rw [hfirst] at hdone; cases hdone

end Item

namespace Family

/-- An item that may be compiled has a flat list if the calls among them do. -/
theorem flat_of_mem_flattenItem {family : Family} {origin item : Item}
    (horigin : Allows family origin) (hcalls : ∀ token, item ∈ flatten family token → item.Flat)
    (hitem : item ∈ flattenItem family origin) : item.Flat := by
  cases origin with
  | literal x => rw [List.mem_singleton.mp hitem]; exact horigin
  | word p => rw [List.mem_singleton.mp hitem]; exact horigin
  | call token => exact hcalls token hitem

/-- The flat list of a definition in an acyclic family is flat. -/
theorem flat_of_mem_flatten {family : Family} {token : Nat} {item : Item} (h : Acyclic family)
    (hitem : item ∈ flatten family token) : item.Flat := by
  induction family generalizing token with
  | nil => cases hitem
  | cons colon earlier ih =>
      by_cases htoken : colon.token = token
      · subst htoken
        rw [flatten_cons_self] at hitem
        obtain ⟨origin, horigin, hmem⟩ := List.mem_flatMap.mp hitem
        exact flat_of_mem_flattenItem (h.1 origin horigin) (fun _ => ih h.2) hmem
      · rw [flatten_cons_of_ne htoken] at hitem
        exact ih h.2 hitem

/-- The flat list of items that may be compiled after an acyclic family is flat. -/
theorem flat_of_mem_flatMap {family : Family} {items : List Item} (h : Acyclic family)
    (hitems : ∀ item ∈ items, Allows family item) :
    ∀ item ∈ items.flatMap (flattenItem family), item.Flat := by
  intro item hitem
  obtain ⟨origin, horigin, hmem⟩ := List.mem_flatMap.mp hitem
  exact flat_of_mem_flattenItem (hitems origin horigin) (fun _ => flat_of_mem_flatten h) hmem

end Family

end ThreadedForth
