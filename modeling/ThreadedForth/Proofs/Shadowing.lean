import Mathlib.Data.List.Forall2
import Mathlib.Order.Bounds.Defs
import ThreadedForth.Proofs.Growth

/-!
# Shadowing

Lookup answers with the greatest token whose definition is visible and has the name that is looked
up, byte for byte up to the case of ASCII letters. What follows is local to names: adding a
definition or changing its visibility concerns only the names that are the same as its own. And it
is reversible: once everything that has been added is hidden and the older definitions are as
visible as they were, lookup answers as it did, whatever has been done in between.
-/

namespace ThreadedForth

namespace Name

/-- A byte is an upper-case ASCII letter. -/
def IsUpper (b : UInt8) : Prop := 0x41 ≤ b ∧ b ≤ 0x5A

/-- Two bytes are equal, or the two cases of one ASCII letter. -/
def LetterEq (b c : UInt8) : Prop := b = c ∨ IsUpper b ∧ c = b + 0x20 ∨ IsUpper c ∧ b = c + 0x20

/-- Two byte strings are equal byte for byte up to the case of ASCII letters. -/
def CaseEq (left right : List UInt8) : Prop := List.Forall₂ LetterEq left right

/-- An upper-case letter is folded to the byte 32 above it, and every other byte to itself. -/
theorem foldCase_eq (b : UInt8) :
    IsUpper b ∧ foldCase b = b + 0x20 ∨ ¬ IsUpper b ∧ foldCase b = b := by
  unfold foldCase IsUpper
  by_cases h : 0x41 ≤ b ∧ b ≤ 0x5A
  · exact .inl ⟨h, if_pos (by simpa using h)⟩
  · exact .inr ⟨h, if_neg (by simpa using h)⟩

/-- Bytes are folded to the same byte exactly when they are equal up to case. -/
theorem foldCase_eq_iff {b c : UInt8} : foldCase b = foldCase c ↔ LetterEq b c := by
  have hfold := foldCase_eq b
  have hfold' := foldCase_eq c
  unfold LetterEq
  simp only [IsUpper, UInt8.le_iff_toNat_le, ← UInt8.toNat_inj, UInt8.toNat_add] at hfold hfold' ⊢
  have hb := b.toNat_lt
  have hc := c.toNat_lt
  simp only [show (0x41 : UInt8).toNat = 65 from rfl, show (0x5A : UInt8).toNat = 90 from rfl,
    show (0x20 : UInt8).toNat = 32 from rfl] at hfold hfold' ⊢
  omega

/-- Two byte strings are taken for the same name exactly when they are equal up to case. -/
theorem same_iff {left right : List UInt8} : same left right = true ↔ CaseEq left right := by
  unfold same CaseEq
  rw [beq_iff_eq, ← List.forall₂_eq_eq_eq, List.forall₂_map_left_iff, List.forall₂_map_right_iff]
  simp only [foldCase_eq_iff]

/-- Names that are equal up to case are equal up to case to the same names. -/
theorem CaseEq.congr {left right : List UInt8} (h : CaseEq left right) (name : List UInt8) :
    CaseEq name left ↔ CaseEq name right := by
  rw [← same_iff, same, beq_iff_eq] at h
  rw [← same_iff, ← same_iff, same, same, h]

end Name

open Name (CaseEq)

namespace Dictionary

variable {d e : Dictionary} {name left right : List UInt8}

/-- A definition that lookup of a name may answer with: it is visible, and its name is the same up
to case. -/
def Answers (d : Dictionary) (name : List UInt8) (token : Nat) : Prop :=
  ∃ definition, d.get? token = some definition ∧ definition.hidden = false ∧
    CaseEq (Name.bytes definition.name) name

/-- The test that lookup makes decides which definitions it may answer with. -/
theorem any_answers_iff {token : Nat} :
    (d.get? token).any (·.answers name) = true ↔ d.Answers name token := by
  unfold Answers
  cases d.get? token with
  | none => simp
  | some definition => simp [Definition.answers, Name.same_iff]

/-- Such a definition has a token below the number of definitions. -/
theorem Answers.lt_size {token : Nat} (h : d.Answers name token) : token < d.size := by
  obtain ⟨definition, hget, -⟩ := h
  exact (Array.getElem?_eq_some_iff.mp hget).1

/-- Lookup answers with the greatest token that it may answer with. -/
theorem find?_eq_some_iff {token : Nat} :
    d.find? name = some token ↔ IsGreatest {other | d.Answers name other} token := by
  unfold find?
  rw [findBelow_eq_some_iff, any_answers_iff]
  constructor
  · rintro ⟨-, hanswers, hlater⟩
    refine ⟨hanswers, fun later hlaterAnswers => Nat.le_of_not_lt fun hlt => ?_⟩
    have hnone := hlater later hlt hlaterAnswers.lt_size
    rw [any_answers_iff.mpr hlaterAnswers] at hnone
    cases hnone
  · rintro ⟨hanswers, hgreatest⟩
    refine ⟨hanswers.lt_size, hanswers, fun later hlt _ => ?_⟩
    rw [Bool.eq_false_iff, Ne, any_answers_iff]
    exact fun hlaterAnswers => Nat.not_le_of_lt hlt (hgreatest hlaterAnswers)

/-- Lookup does not answer exactly when there is nothing that it may answer with. -/
theorem find?_eq_none_iff : d.find? name = none ↔ ∀ token, ¬ d.Answers name token := by
  constructor
  · intro hnone token hanswers
    have hbelow : ∀ count, d.findBelow name count = none → ¬ token < count := by
      -- The search goes down from `count`, so it meets every candidate below before it gives up.
      intro count
      induction count with
      | zero => exact fun _ => Nat.not_lt_zero _
      | succ count ih =>
          intro hfind hlt
          rw [findBelow] at hfind
          split at hfind
          · cases hfind
          · next hcount =>
              have hne : token ≠ count := fun heq => hcount (any_answers_iff.mpr (heq ▸ hanswers))
              exact ih hfind (by omega)
    exact hbelow d.size hnone hanswers.lt_size
  · intro hnone
    cases hfind : d.find? name with
    | none => rfl
    | some token => exact absurd (find?_eq_some_iff.mp hfind).1 (hnone token)

/-- Two lookups that may answer with the same tokens answer alike. -/
theorem find?_congr (h : ∀ token, d.Answers left token ↔ e.Answers right token) :
    d.find? left = e.find? right := by
  apply Option.ext
  intro token
  rw [find?_eq_some_iff, find?_eq_some_iff]
  simp only [h]

/-- Names that are equal up to case are looked up alike. -/
theorem find?_of_caseEq (d : Dictionary) (h : CaseEq left right) :
    d.find? left = d.find? right := by
  apply find?_congr
  intro token
  simp only [Answers, h.congr]

/-- After a definition has been added, lookup may answer with that one and with those from
before. -/
theorem answers_push {definition : Definition} {token : Nat} :
    (Dictionary.mk (d.entries.push definition) d.capacity).Answers name token ↔
      (token = d.size ∧ definition.hidden = false ∧ CaseEq (Name.bytes definition.name) name) ∨
        d.Answers name token := by
  unfold Answers
  rw [get?_push]
  by_cases htoken : token = d.size
  · subst htoken
    have hnone : d.get? d.size = none := Array.getElem?_eq_none (Nat.le_refl _)
    simp [hnone]
  · simp [htoken]

/-- A visible definition that has been added is what lookup of its name answers. -/
theorem find?_append_same {definition : Definition} {token : Nat}
    (h : d.append definition = .ok (token, e)) (hvisible : definition.hidden = false)
    (hname : CaseEq (Name.bytes definition.name) name) : e.find? name = some token := by
  obtain ⟨-, -, rfl, rfl⟩ := append_eq_ok.mp h
  rw [find?_eq_some_iff]
  refine ⟨answers_push.mpr (.inl ⟨rfl, hvisible, hname⟩), fun other hother => ?_⟩
  rcases answers_push.mp hother with ⟨rfl, -⟩ | hold
  · exact Nat.le_refl _
  · exact Nat.le_of_lt hold.lt_size

/-- A definition that has been added is of no concern to lookup of another name. -/
theorem find?_append_other {definition : Definition} {token : Nat}
    (h : d.append definition = .ok (token, e))
    (hname : ¬ CaseEq (Name.bytes definition.name) name) : e.find? name = d.find? name := by
  obtain ⟨-, -, rfl, rfl⟩ := append_eq_ok.mp h
  apply find?_congr
  intro other
  simp [answers_push, hname]

/-- Hide a definition, or show it again. -/
def setHidden (d : Dictionary) (token : Nat) (hidden : Bool) : Dictionary :=
  d.modify token fun definition => { definition with hidden := hidden }

/-- Changing the definition with one token leaves all others alone. -/
theorem get?_modify (d : Dictionary) (token : Nat) (f : Definition → Definition) (other : Nat) :
    (d.modify token f).get? other = if token = other then (d.get? other).map f else d.get? other :=
  Array.getElem?_modify

/-- The visibility of a definition is of no concern to lookup of another name. -/
theorem find?_setHidden {token : Nat} {hidden : Bool}
    (hname : ∀ definition, d.get? token = some definition →
      ¬ CaseEq (Name.bytes definition.name) name) :
    (d.setHidden token hidden).find? name = d.find? name := by
  apply find?_congr
  intro other
  unfold Answers setHidden
  rw [get?_modify]
  split
  · next htoken =>
      subst htoken
      constructor
      · rintro ⟨changed, hget, -, hsame⟩
        obtain ⟨definition, hdefinition, rfl⟩ := Option.map_eq_some_iff.mp hget
        exact absurd hsame (hname definition hdefinition)
      · rintro ⟨definition, hget, -, hsame⟩
        exact absurd hsame (hname definition hget)
  · exact Iff.rfl

/-- What is done to a dictionary: a definition is added, or one is hidden, shown or made
immediate. -/
inductive Edit where
  | append (definition : Definition)
  | setHidden (token : Nat) (hidden : Bool)
  | setImmediate (token : Nat)

/-- The dictionary after an edit; a definition that is refused is not added. -/
def edit (d : Dictionary) : Edit → Dictionary
  | .append definition => (d.append definition).toOption.elim d (·.2)
  | .setHidden token hidden => d.setHidden token hidden
  | .setImmediate token => d.modify token fun definition => { definition with immediate := true }

/-- The dictionary after edits one after the other. -/
def editAll (d : Dictionary) (edits : List Edit) : Dictionary := edits.foldl edit d

/-- A dictionary has the definitions of another one first, with their names. -/
def Begins (d e : Dictionary) : Prop :=
  ∀ token old, d.get? token = some old → ∃ new, e.get? token = some new ∧ new.name = old.name

/-- Changing a definition other than in its name keeps the names. -/
theorem begins_modify (d : Dictionary) (token : Nat) {f : Definition → Definition}
    (hf : ∀ old, (f old).name = old.name) : d.Begins (d.modify token f) := by
  intro other old hold
  rw [get?_modify, hold]
  split
  · exact ⟨f old, rfl, hf old⟩
  · exact ⟨old, rfl, rfl⟩

/-- One edit keeps the definitions first. -/
theorem begins_edit (d : Dictionary) (change : Edit) : d.Begins (d.edit change) := by
  cases change with
  | append definition =>
      rw [edit]
      cases happend : d.append definition with
      | error fault => exact fun token old hold => ⟨old, hold, rfl⟩
      | ok appended =>
          have hok : d.append definition = .ok (appended.1, appended.2) := happend
          obtain ⟨-, -, -, hentries⟩ := append_eq_ok.mp hok
          intro token old hold
          have hlt : token < d.size := (Array.getElem?_eq_some_iff.mp hold).1
          refine ⟨old, ?_, rfl⟩
          change appended.2.get? token = some old
          rw [hentries, get?_push, if_neg (Nat.ne_of_lt hlt), hold]
  | setHidden token hidden => exact d.begins_modify token fun _ => rfl
  | setImmediate token => exact d.begins_modify token fun _ => rfl

/-- All edits keep the definitions first. -/
theorem begins_editAll (d : Dictionary) (edits : List Edit) : d.Begins (d.editAll edits) := by
  induction edits generalizing d with
  | nil => exact fun token old hold => ⟨old, hold, rfl⟩
  | cons change rest ih =>
      intro token old hold
      obtain ⟨between, hbetween, hname⟩ := d.begins_edit change token old hold
      obtain ⟨new, hnew, hname'⟩ := ih (d.edit change) token between hbetween
      exact ⟨new, hnew, hname'.trans hname⟩

/-- Whatever has been added is hidden, and the older definitions are as visible as they were. -/
structure Covered (d e : Dictionary) : Prop where
  new {token : Nat} {definition : Definition} : d.size ≤ token → e.get? token = some definition →
    definition.hidden = true
  old {token : Nat} {before after : Definition} : d.get? token = some before →
    e.get? token = some after →
    after.hidden = before.hidden

/-- Where all that has been added is hidden and the rest is as visible as it was, lookup answers as
it did. -/
theorem Covered.find?_eq (h : d.Covered e) (hbegins : d.Begins e) (name : List UInt8) :
    e.find? name = d.find? name := by
  apply find?_congr
  intro token
  constructor
  · rintro ⟨after, hafter, hvisible, hsame⟩
    cases hbefore : d.get? token with
    | none =>
        have hhidden := h.new (Array.getElem?_eq_none_iff.mp hbefore) hafter
        rw [hvisible] at hhidden
        cases hhidden
    | some before =>
        obtain ⟨after', hafter', hname⟩ := hbegins token before hbefore
        cases hafter.symm.trans hafter'
        exact ⟨before, hbefore, (h.old hbefore hafter).symm.trans hvisible, hname ▸ hsame⟩
  · rintro ⟨before, hbefore, hvisible, hsame⟩
    obtain ⟨after, hafter, hname⟩ := hbegins token before hbefore
    exact ⟨after, hafter, (h.old hbefore hafter).trans hvisible, hname ▸ hsame⟩

end Dictionary

/-- A machine hides and shows definitions in its dictionary. -/
theorem Machine.dictionary_setHidden {m n : Machine} {token : Cell} {hidden : Bool}
    (h : m.setHidden token hidden = .ok n) :
    n.dictionary = m.dictionary.setHidden token.toNat hidden := by
  obtain ⟨definition, -, hn⟩ := bind_eq_ok.mp h
  cases hn
  rfl

/-- A machine that has grown has the definitions of the old one first, with their names. -/
theorem Machine.Grows.begins {m n : Machine} (h : m.Grows n) :
    m.dictionary.Begins n.dictionary := by
  intro token old hold
  have hold' : m.dictionary.entries.toList[token]? = some old := by
    rw [Array.getElem?_toList]; exact hold
  obtain ⟨more, hmore⟩ := h.definitions
  have hcore : (n.dictionary.entries.toList.map Definition.core)[token]? = some old.core := by
    rw [← hmore, List.getElem?_append_left, List.getElem?_map, hold']
    · rfl
    · rw [List.length_map]
      exact (List.getElem?_eq_some_iff.mp hold').1
  rw [List.getElem?_map] at hcore
  obtain ⟨new, hnew, heq⟩ := Option.map_eq_some_iff.mp hcore
  rw [Array.getElem?_toList] at hnew
  exact ⟨new, hnew, congrArg Prod.fst heq⟩

namespace Dictionary

/-- Lookup is a stack of shadows over each name. It answers with the greatest token whose definition
is visible and has the name up to case; a visible definition that is added takes over its own name
and no other; hiding or showing one concerns its own name only. And whatever is done to a
dictionary, once all that has been added is hidden and all that is older is as visible as it was,
every name is looked up as before. The same goes for a session until it is started again. -/
theorem find?_shadows (d : Dictionary) :
    (∀ name token, d.find? name = some token ↔ IsGreatest {other | d.Answers name other} token) ∧
    (∀ name, d.find? name = none ↔ ∀ token, ¬ d.Answers name token) ∧
    (∀ left right, CaseEq left right → d.find? left = d.find? right) ∧
    (∀ definition token e, definition.hidden = false → d.append definition = .ok (token, e) →
      ∀ name, (CaseEq (Name.bytes definition.name) name → e.find? name = some token) ∧
      (¬ CaseEq (Name.bytes definition.name) name → e.find? name = d.find? name)) ∧
    (∀ token definition hidden name, d.get? token = some definition →
      ¬ CaseEq (Name.bytes definition.name) name →
      (d.setHidden token hidden).find? name = d.find? name) ∧
    (∀ (m n : Machine) (token : Cell) hidden, m.dictionary = d → m.setHidden token hidden = .ok n →
      n.dictionary = d.setHidden token.toNat hidden) ∧
    (∀ edits, d.Covered (d.editAll edits) → ∀ name, (d.editAll edits).find? name = d.find? name) ∧
    ∀ m n : Machine, m.dictionary = d → m.Onward n → d.Covered n.dictionary →
      ∀ name, n.find? name = d.find? (Name.bytes name) := by
  refine ⟨fun name token => find?_eq_some_iff, fun name => find?_eq_none_iff,
    fun left right => d.find?_of_caseEq, ?_, ?_, ?_, ?_, ?_⟩
  · intro definition token e hvisible happend name
    exact ⟨find?_append_same happend hvisible, find?_append_other happend⟩
  · intro token definition hidden name hget hname
    refine find?_setHidden fun other hother => ?_
    cases hget.symm.trans hother
    exact hname
  · rintro m n token hidden rfl hset
    exact Machine.dictionary_setHidden hset
  · exact fun edits hcovered name => hcovered.find?_eq (d.begins_editAll edits) name
  · rintro m n rfl honward hcovered name
    exact hcovered.find?_eq honward.grows.begins (Name.bytes name)

/-- Two generations shadow a definition, which is hidden for a while; once both are hidden it is
found again. -/
theorem find?_shadows_generations :
    ∃ (d : Dictionary) (edits : List Edit), d.find? (Name.bytes "dup") = some 0 ∧
      (d.editAll (edits.take 3)).find? (Name.bytes "DUP") = some 3 ∧
      (d.editAll edits).size = 4 ∧ d.Covered (d.editAll edits) ∧
      (d.editAll edits).find? (Name.bytes "Dup") = some 0 := by
  let d : Dictionary := ⟨#[{ name := "DUP", action := .nested, body := 0 },
    { name := "swap", action := .nested, body := 0, hidden := true }], 9⟩
  let edits : List Edit :=
    [.append { name := "dup", action := .nested, body := 8 }, .setHidden 0 true,
      .append { name := "dUP", action := .nested, body := 8 }, .setHidden 2 true, .setImmediate 1,
      .setHidden 3 true,
    .setHidden 0 false]
  have hfind : d.find? (Name.bytes "dup") = some 0 := by decide +kernel
  have hsame : d.find? (Name.bytes "Dup") = some 0 := by decide +kernel
  have hflags : (d.editAll edits).entries.toList.map (·.hidden) = [false, true, true, true] := by
    decide +kernel
  have hget : ∀ {token definition}, (d.editAll edits).get? token = some definition →
      [false, true, true, true][token]? = some definition.hidden := by
    intro token definition hdefinition
    rw [← hflags, List.getElem?_map, Array.getElem?_toList]
    exact congrArg (Option.map _) hdefinition
  have hcovered : d.Covered (d.editAll edits) := by
    refine ⟨fun {token definition} hnew hdefinition => ?_,
      fun {token before after} hbefore hafter => ?_⟩
    · have hlow : 2 ≤ token := hnew
      have hhigh : token < 4 := (List.getElem?_eq_some_iff.mp (hget hdefinition)).1
      obtain rfl | rfl : token = 2 ∨ token = 3 := by omega
      · exact (Option.some.inj (hget hdefinition)).symm
      · exact (Option.some.inj (hget hdefinition)).symm
    · have hlt : token < 2 := (Array.getElem?_eq_some_iff.mp hbefore).1
      obtain rfl | rfl : token = 0 ∨ token = 1 := by omega
      · cases hbefore
        exact (Option.some.inj (hget hafter)).symm
      · cases hbefore
        exact (Option.some.inj (hget hafter)).symm
  obtain ⟨-, -, -, -, -, -, hreversible, -⟩ := d.find?_shadows
  exact ⟨d, edits, hfind, by decide +kernel, by decide +kernel, hcovered,
    (hreversible edits hcovered _).trans hsame⟩

end Dictionary

end ThreadedForth
