import ThreadedForth.Proofs.Continuation

/-!
# Adding definitions

The exact conditions under which a definition is added, the token and the body it gets, and the
order that the bodies keep. The layout of a new session follows: the arguments one after the other,
then the primitives in the order of their table.
-/

namespace ThreadedForth

/-- A dictionary within its capacity whose bodies are aligned, in the order of the tokens, and below
a limit. -/
structure Dictionary.Orderly (d : Dictionary) (limit : Nat) : Prop where
  size_le : d.size ≤ d.capacity
  aligned {token : Nat} {e : Definition} : d.get? token = some e → cellSize ∣ e.body
  body_le {token : Nat} {e : Definition} : d.get? token = some e → e.body ≤ limit
  name_le {token : Nat} {e : Definition} : d.get? token = some e →
    e.name.utf8ByteSize ≤ Name.maxLength
  ordered {earlier later : Nat} {e f : Definition} : earlier ≤ later → d.get? earlier = some e →
    d.get? later = some f → e.body ≤ f.body

namespace Dictionary

variable {d e : Dictionary} {limit : Nat}

/-- A dictionary without definitions is orderly. -/
theorem Orderly.empty (capacity limit : Nat) : (Dictionary.empty capacity).Orderly limit where
  size_le := Nat.zero_le _
  aligned h := by cases h
  body_le h := by cases h
  name_le h := by cases h
  ordered _ h := by cases h

/-- A dictionary that a definition has been added to has the earlier ones, and the new one last. -/
theorem get?_push {d : Dictionary} {definition : Definition} {token : Nat} :
    (Dictionary.mk (d.entries.push definition) d.capacity).get? token =
      if token = d.size then some definition else d.get? token := by
  exact Array.getElem?_push

/-- Adding a definition at or above all others keeps a dictionary orderly. -/
theorem Orderly.push {definition : Definition} (h : d.Orderly limit) (hsize : d.size < d.capacity)
    (haligned : cellSize ∣ definition.body) (hlimit : limit ≤ definition.body)
    (hname : definition.name.utf8ByteSize ≤ Name.maxLength) :
    (Dictionary.mk (d.entries.push definition) d.capacity).Orderly definition.body where
  size_le := by
    rw [size, Array.size_push]
    exact hsize
  aligned hget := by
    rw [get?_push] at hget
    split at hget
    · cases hget; exact haligned
    · exact h.aligned hget
  body_le hget := by
    rw [get?_push] at hget
    split at hget
    · cases hget; exact Nat.le_refl _
    · exact Nat.le_trans (h.body_le hget) hlimit
  name_le hget := by
    rw [get?_push] at hget
    split at hget
    · cases hget; exact hname
    · exact h.name_le hget
  ordered {earlier later e f} hle hearlier hlater := by
    rw [get?_push] at hearlier hlater
    split at hlater
    · cases hlater
      split at hearlier
      · cases hearlier; exact Nat.le_refl _
      · exact Nat.le_trans (h.body_le hearlier) hlimit
    · next hne =>
        have hlt : later < d.size := (Array.getElem?_eq_some_iff.mp hlater).1
        rw [if_neg (by omega)] at hearlier
        exact h.ordered hle hearlier hlater

/-- A dictionary with the same definitions apart from flags is as orderly, below any higher
limit. -/
theorem Orderly.resembles {limit' : Nat} (h : d.Orderly limit) (hde : d.Resembles e)
    (hlimit : limit ≤ limit') : e.Orderly limit' where
  size_le := by rw [hde.size, hde.capacity]; exact h.size_le
  aligned hget := by
    obtain ⟨other, hother, -, -, hbody⟩ := hde.symm.get? hget
    exact hbody ▸ h.aligned hother
  body_le hget := by
    obtain ⟨other, hother, -, -, hbody⟩ := hde.symm.get? hget
    exact hbody ▸ Nat.le_trans (h.body_le hother) hlimit
  name_le hget := by
    obtain ⟨other, hother, hname, -, -⟩ := hde.symm.get? hget
    exact hname ▸ h.name_le hother
  ordered hle hearlier hlater := by
    obtain ⟨_, hearlier', -, -, hbody⟩ := hde.symm.get? hearlier
    obtain ⟨_, hlater', -, -, hbody'⟩ := hde.symm.get? hlater
    exact hbody ▸ hbody' ▸ h.ordered hle hearlier' hlater'

/-- A definition is added exactly when its name is short enough and the dictionary is not full. -/
theorem append_eq_ok {definition : Definition} {token : Nat} :
    d.append definition = .ok (token, e) ↔
      definition.name.utf8ByteSize ≤ Name.maxLength ∧ d.size < d.capacity ∧ token = d.size ∧
        e = ⟨d.entries.push definition, d.capacity⟩ := by
  unfold append checkAppend
  split
  · next h => exact ⟨fun hok => (nomatch hok), fun hname => absurd hname.1 (by omega)⟩
  · split
    · next h => exact ⟨fun hok => (nomatch hok), fun hsize => absurd hsize.2.1 (by omega)⟩
    · next hname hsize =>
        refine ⟨fun hok => ?_, fun ⟨_, _, htoken, he⟩ => by rw [htoken, he]; rfl⟩
        cases hok
        exact ⟨by omega, by omega, rfl, rfl⟩

/-- A definition is refused for its name or for lack of room. -/
theorem append_tolerates (d : Dictionary) (definition : Definition) :
    Meets (fun _ => True) (fun fault => fault.isOrdinary = true) (d.append definition) := by
  unfold append checkAppend
  split
  · rfl
  · split
    · rfl
    · trivial

end Dictionary

namespace Machine

variable {m n : Machine}

/-- A definition is added exactly when its name, the dictionary and data space allow it. Its token
is the number of earlier definitions and its body the next cell boundary, to which `here` moves. -/
theorem define_eq_ok {name : String} {action : Action} {immediate : Bool} {token : Nat} :
    m.define name action immediate = .ok (token, n) ↔
      (name.utf8ByteSize ≤ Name.maxLength ∧ m.dictionary.size < m.dictionary.capacity ∧
        alignUp m.space.here < m.space.size) ∧ token = m.dictionary.size ∧
        n = { m with
          dictionary := ⟨m.dictionary.entries.push
            { name := name, action := action, body := alignUp m.space.here,
              immediate := immediate },
            m.dictionary.capacity⟩
          space := { m.space with here := alignUp m.space.here } } := by
  unfold define
  rw [bind_eq_ok]
  constructor
  · rintro ⟨⟨_, dictionary⟩, happend, hspace⟩
    obtain ⟨hname, hsize, rfl, rfl⟩ := Dictionary.append_eq_ok.mp happend
    obtain ⟨space, halign, hn⟩ := bind_eq_ok.mp hspace
    obtain ⟨hroom, rfl⟩ := DataSpace.align_eq_ok.mp halign
    cases hn
    exact ⟨⟨hname, hsize, hroom⟩, rfl, rfl⟩
  · rintro ⟨⟨hname, hsize, hroom⟩, rfl, rfl⟩
    refine ⟨_, Dictionary.append_eq_ok.mpr ⟨hname, hsize, rfl, rfl⟩, ?_⟩
    exact bind_eq_ok.mpr ⟨_, DataSpace.align_eq_ok.mpr ⟨hroom, rfl⟩, rfl⟩

/-- While a byte of data space remains, no definition is refused for the opposite. -/
theorem define_tolerates (m : Machine) (name : String) (action : Action) (immediate : Bool) :
    Meets (fun _ => True) m.Tolerates (m.define name action immediate) := by
  have happend : ∀ definition, Meets (fun _ => True) m.Tolerates (m.dictionary.append definition) :=
    fun definition =>
      (m.dictionary.append_tolerates definition).weaken (fun _ _ => trivial) fun _ hfault =>
      .ordinary hfault
  exact (happend _).bind fun _ _ => (tolerates_of_grows m.space.align_grows).bind fun _ _ => trivial

/-- Laying arguments extends data space, and every argument lies in the part that was added. -/
theorem layArguments_meets (s : DataSpace) (arguments : List String) :
    Meets (fun laid => s.Extends laid.1 ∧
        ∀ span ∈ laid.2, s.here ≤ span.address ∧ span.address + span.length ≤ laid.1.here)
      (fun fault => s.here < s.size → fault.isOrdinary = true) (layArguments s arguments) := by
  induction arguments generalizing s with
  | nil => exact ⟨.refl s, fun span hspan => (nomatch hspan)⟩
  | cons argument rest ih =>
      have hgrows := s.append_grows (Name.bytes argument)
      rw [layArguments]
      cases happend : s.append (Name.bytes argument) with
      | error fault => rw [happend] at hgrows; exact hgrows
      | ok t =>
          rw [happend] at hgrows
          obtain ⟨hspace, ht⟩ := DataSpace.append_eq_ok.mp happend
          have hhere : t.here = s.here + (Name.bytes argument).length := by rw [ht]
          refine ((ih t).weaken (fun _ h => h) fun fault hfault hlt =>
            hfault (hgrows.here_lt hlt)).bind ?_
          rintro ⟨u, spans⟩ ⟨hextends, hspans⟩
          have hle : t.here ≤ u.here := hextends.here_le
          refine ⟨⟨hextends.size.trans hgrows.size, Nat.le_trans hgrows.here_le hle,
            fun hlt => hextends.here_lt (hgrows.here_lt hlt)⟩, fun span hspan => ?_⟩
          rcases List.mem_cons.mp hspan with rfl | hspan
          · exact ⟨Nat.le_refl _, hhere ▸ hle⟩
          · obtain ⟨hlow, hhigh⟩ := hspans span hspan
            exact ⟨by omega, hhigh⟩

/-- A machine to which the given primitives have been added in order, all else being as before. -/
structure Adds (m : Machine) (table : List Primitive) (n : Machine) : Prop where
  rest : n = { m with dictionary := n.dictionary, space := n.space }
  space : m.space.Extends n.space
  capacity : n.dictionary.capacity = m.dictionary.capacity
  size : n.dictionary.size = m.dictionary.size + table.length
  orderly : m.dictionary.Orderly m.space.here → n.dictionary.Orderly n.space.here
  old {token : Nat} : token < m.dictionary.size → n.dictionary.get? token = m.dictionary.get? token
  new {index : Nat} {p : Primitive} : table[index]? = some p →
    ∃ d, n.dictionary.get? (m.dictionary.size + index) = some d ∧ d.name = p.name ∧
      d.action = .primitive p

/-- One more primitive may be added in front of others. -/
theorem Adds.cons {p : Primitive} {table : List Primitive} {token : Nat} {o : Machine}
    (hdefine : m.define p.name (.primitive p) p.isImmediate = .ok (token, n)) (h : n.Adds table o) :
    m.Adds (p :: table) o := by
  obtain ⟨⟨hname, hsize, hroom⟩, -, hn⟩ := define_eq_ok.mp hdefine
  have hsize' : n.dictionary.size = m.dictionary.size + 1 := by
    rw [hn]
    exact Array.size_push _
  have hspace : m.space.Extends n.space := by
    rw [hn]
    exact ⟨rfl, le_alignUp _, fun _ => hroom⟩
  have hget : ∀ token, n.dictionary.get? token = if token = m.dictionary.size then
      some {
        name := p.name, action := .primitive p, body := alignUp m.space.here,
        immediate := p.isImmediate }
      else m.dictionary.get? token := by
    intro token
    rw [hn]
    exact Dictionary.get?_push
  refine ⟨?_, ?_, ?_, ?_, ?_, ?_, ?_⟩
  · rw [h.rest, hn]
  · exact ⟨h.space.size.trans hspace.size, Nat.le_trans hspace.here_le h.space.here_le,
      fun hlt => h.space.here_lt (hspace.here_lt hlt)⟩
  · rw [h.capacity, hn]
  · rw [h.size, hsize', List.length_cons]
    omega
  · intro horderly
    refine h.orderly ?_
    rw [hn]
    exact horderly.push hsize (dvd_alignUp _) (le_alignUp _) hname
  · intro token htoken
    rw [h.old (by omega), hget, if_neg (by omega)]
  · intro index q hindex
    cases index with
    | zero =>
        cases hindex
        exact ⟨_, by rw [h.old (by omega), hget, if_pos (Nat.add_zero _)], rfl, rfl⟩
    | succ index =>
        obtain ⟨d, hd, hdq⟩ := h.new hindex
        exact ⟨d, by rw [← hd, hsize']; congr 1; omega, hdq⟩

/-- Primitives are added in order, or refused for a tolerated reason. -/
theorem definePrimitives_meets (m : Machine) (table : List Primitive) :
    Meets (m.Adds table) m.Tolerates (m.definePrimitives table) := by
  induction table generalizing m with
  | nil => exact ⟨rfl, .refl _, rfl, rfl, id, fun _ => rfl, fun h => (nomatch h)⟩
  | cons p table ih =>
      have htolerates := m.define_tolerates p.name (.primitive p) p.isImmediate
      rw [definePrimitives]
      cases hdefine : m.define p.name (.primitive p) p.isImmediate with
      | error fault => rw [hdefine] at htolerates; exact htolerates
      | ok defined =>
          obtain ⟨token, n⟩ := defined
          obtain ⟨⟨-, -, hroom⟩, -, hn⟩ := define_eq_ok.mp hdefine
          refine (ih n).weaken (fun o ho => .cons hdefine ho) fun fault hfault _ => ?_
          subst hn
          exact hfault hroom

/-- Adding a definition takes no notice of console and clock. -/
theorem define_environment (m : Machine) (name : String) (action : Action) (immediate : Bool)
    (console : Console) (clock : Clock) :
    define { m with console := console, clock := clock } name action immediate =
      (m.define name action immediate).map fun added =>
        (added.1, { added.2 with console := console, clock := clock }) := by
  unfold define
  dsimp only
  cases m.dictionary.append ⟨name, action, alignUp m.space.here, false, immediate⟩ with
  | error cause => rfl
  | ok appended =>
      cases m.space.align with
      | error cause => rfl
      | ok space => rfl

/-- Adding primitives takes no notice of console and clock. -/
theorem definePrimitives_environment (m : Machine) (table : List Primitive) (console : Console)
    (clock : Clock) :
    definePrimitives { m with console := console, clock := clock } table =
      (m.definePrimitives table).map fun added =>
        { added with console := console, clock := clock } := by
  induction table generalizing m with
  | nil => rfl
  | cons p rest ih =>
      rw [definePrimitives, definePrimitives, define_environment]
      cases m.define p.name (.primitive p) p.isImmediate with
      | error cause => rfl
      | ok added => exact ih added.2

end Machine

end ThreadedForth
