import ThreadedForth.Proofs.Definition

/-!
# Well-formed machines

The bounds that the representation of a machine relies on, with the capacities a valid configuration
gives. A new session is well-formed, and a machine that continues a well-formed one or adds a
definition to it is well-formed again.
-/

namespace ThreadedForth

namespace Config

variable {config : Config}

/-- An area is bounded exactly when its capacity is at most the maximum. -/
theorem requireBounded_eq_ok {area : Area} :
    config.requireBounded area = .ok () ↔ config.capacity area ≤ area.maximum := by
  unfold requireBounded
  split
  · next h => exact ⟨fun hok => (nomatch hok), fun hle => absurd hle (by omega)⟩
  · next h => exact ⟨fun _ => by omega, fun _ => rfl⟩

/-- An area is usable exactly when its capacity is positive and at most the maximum. -/
theorem requireUsable_eq_ok {area : Area} :
    config.requireUsable area = .ok () ↔
    0 < config.capacity area ∧ config.capacity area ≤ area.maximum := by
  unfold requireUsable
  split
  · next h => exact ⟨fun hok => (nomatch hok), fun hpos => absurd hpos.1 (by omega)⟩
  · next h => rw [requireBounded_eq_ok]; exact ⟨fun hle => ⟨by omega, hle⟩, fun hle => hle.2⟩

/-- The capacities of a valid configuration. -/
structure Valid (config : Config) : Prop where
  dataSpace : 0 < config.dataSpace ∧ config.dataSpace ≤ Area.dataSpace.maximum
  dataStack : 0 < config.dataStack ∧ config.dataStack ≤ Area.dataStack.maximum
  returnStack : 0 < config.returnStack ∧ config.returnStack ≤ Area.returnStack.maximum
  dictionary : 0 < config.dictionary ∧ config.dictionary ≤ Area.dictionary.maximum
  inputBuffer : config.inputBuffer ≤ Area.inputBuffer.maximum
  systemArea : config.systemArea < config.dataSpace

/-- Validation accepts exactly the valid configurations. -/
theorem validate_eq_ok : config.validate = .ok () ↔ config.Valid := by
  have hbind : ∀ (x y : Except ConfigError Unit),
      (do x; y) = .ok () ↔ x = .ok () ∧ y = .ok () := by
    intro x y
    cases x with
    | ok value => exact ⟨fun h => ⟨rfl, h⟩, fun h => h.2⟩
    | error error => exact ⟨fun h => (nomatch h), fun h => (nomatch h.1)⟩
  have hroom : (if config.dataSpace ≤ config.systemArea then
      (.error (.dataSpaceTooSmall config.dataSpace config.systemArea) : Except ConfigError Unit)
      else .ok ()) = .ok () ↔ config.systemArea < config.dataSpace := by
    split
    · next h => exact ⟨fun hok => (nomatch hok), fun hlt => absurd hlt (by omega)⟩
    · next h => exact ⟨fun _ => by omega, fun _ => rfl⟩
  unfold validate
  rw [hbind, hbind, hbind, hbind, hbind, hroom, requireUsable_eq_ok, requireUsable_eq_ok,
    requireUsable_eq_ok, requireUsable_eq_ok, requireBounded_eq_ok]
  exact ⟨fun ⟨hspace, hdata, hreturns, hdictionary, hbuffer, hsystem⟩ =>
      ⟨hspace, hdata, hreturns, hdictionary, hbuffer, hsystem⟩,
    fun h => ⟨h.dataSpace, h.dataStack, h.returnStack, h.dictionary, h.inputBuffer, h.systemArea⟩⟩

end Config

namespace Machine

variable {m n : Machine}

/-- The representation invariant of a machine that was started with given capacities and
arguments. -/
structure WellFormed (config : Config) (arguments : List String) (m : Machine) : Prop where
  valid : config.Valid
  config_eq : m.config = config
  arguments_eq : m.arguments = arguments
  data_capacity : m.data.capacity = config.dataStack
  returns_capacity : m.returns.capacity = config.returnStack
  space_size : m.space.size = config.dataSpace
  system_le : config.systemArea ≤ m.space.here
  here_lt : m.space.here < config.dataSpace
  dictionary_capacity : m.dictionary.capacity = config.dictionary
  orderly : m.dictionary.Orderly m.space.here
  primitive {index : Nat} {p : Primitive} : Primitive.all[index]? = some p →
    ∃ d, m.dictionary.get? index = some d ∧ d.name = p.name ∧ d.action = .primitive p
  line_le : m.lineLength ≤ config.inputBuffer
  span {span : Span} : span ∈ m.spans →
    config.systemArea ≤ span.address ∧ span.address + span.length ≤ m.space.here

variable {config : Config} {arguments : List String}

/-- In a well-formed machine a byte of data space remains. -/
theorem WellFormed.here_lt_size (h : m.WellFormed config arguments) : m.space.here < m.space.size :=
  h.space_size ▸ h.here_lt

/-- Continuing a well-formed machine keeps it well-formed. -/
theorem WellFormed.continues (h : m.WellFormed config arguments) (hmn : m.Continues n) :
    n.WellFormed config arguments where
  valid := h.valid
  config_eq := hmn.config.trans h.config_eq
  arguments_eq := hmn.arguments.trans h.arguments_eq
  data_capacity := hmn.data.trans h.data_capacity
  returns_capacity := hmn.returns.trans h.returns_capacity
  space_size := hmn.space.size.trans h.space_size
  system_le := Nat.le_trans h.system_le hmn.space.here_le
  here_lt := (hmn.space.size.trans h.space_size) ▸ hmn.space.here_lt h.here_lt_size
  dictionary_capacity := hmn.dictionary.capacity.trans h.dictionary_capacity
  orderly := h.orderly.resembles hmn.dictionary hmn.space.here_le
  primitive hindex := by
    obtain ⟨d, hd, hname, haction⟩ := h.primitive hindex
    obtain ⟨e, he, hname', haction', -⟩ := hmn.dictionary.get? hd
    exact ⟨e, he, hname'.trans hname, haction'.trans haction⟩
  line_le := by
    have hline := hmn.line (by rw [h.config_eq]; exact h.line_le)
    rwa [hmn.config, h.config_eq] at hline
  span hspan := by
    rw [hmn.spans] at hspan
    obtain ⟨hlow, hhigh⟩ := h.span hspan
    exact ⟨hlow, Nat.le_trans hhigh hmn.space.here_le⟩

/-- Adding a definition keeps a machine well-formed. -/
theorem WellFormed.define {name : String} {action : Action} {immediate : Bool} {token : Nat}
    (h : m.WellFormed config arguments)
    (hdefine : m.define name action immediate = .ok (token, n)) :
    n.WellFormed config arguments := by
  obtain ⟨⟨hname, hsize, hroom⟩, -, rfl⟩ := define_eq_ok.mp hdefine
  have hle := le_alignUp m.space.here
  refine { h with
    system_le := Nat.le_trans h.system_le hle
    here_lt := h.space_size ▸ hroom
    orderly := h.orderly.push hsize (dvd_alignUp _) hle hname
    primitive := fun {index p} hindex => ?_
    span := fun {span} hspan => ?_ }
  · obtain ⟨d, hd, hdp⟩ := h.primitive hindex
    have hlt : index < m.dictionary.size := (Array.getElem?_eq_some_iff.mp hd).1
    exact ⟨d, by rw [Dictionary.get?_push, if_neg (by omega)]; exact hd, hdp⟩
  · obtain ⟨hlow, hhigh⟩ := h.span hspan
    exact ⟨hlow, Nat.le_trans hhigh hle⟩

/-- A session starts well-formed, with primitives only, unless arguments or primitives do not
fit. -/
theorem fresh_meets (hvalid : config.Valid) (arguments : List String) (console : Console)
    (clock : Clock) :
    Meets (fun n => n.WellFormed config arguments ∧
        ∀ token d, n.dictionary.get? token = some d → ∃ p, d.action = .primitive p)
      (fun fault => fault.isInvalidHere = false) (fresh config arguments console clock) := by
  have hreserve := (DataSpace.empty config.dataSpace).reserve_grows config.systemArea
  unfold fresh
  cases hreserved : (DataSpace.empty config.dataSpace).reserve config.systemArea with
  | error fault =>
      rw [hreserved] at hreserve; exact Fault.isInvalidHere_of_isOrdinary
        (hreserve hvalid.dataSpace.1)
  | ok reserved =>
      obtain ⟨hsystem, rfl⟩ := DataSpace.reserve_eq_ok.mp hreserved
      have hhere : config.systemArea < config.dataSpace := hvalid.systemArea
      refine ((layArguments_meets _ arguments).weaken (fun _ h => h) fun fault hfault =>
        Fault.isInvalidHere_of_isOrdinary (hfault ?_)).bind ?_
      · simpa [DataSpace.empty] using hhere
      · rintro ⟨space, spans⟩ ⟨hextends, hspans⟩
        have hsize : space.size = config.dataSpace := hextends.size
        have hsystem' : config.systemArea ≤ space.here := by
          simpa [DataSpace.empty] using hextends.here_le
        have hlt : space.here < space.size :=
          hextends.here_lt (by simpa [DataSpace.empty] using hhere)
        refine (definePrimitives_meets _ Primitive.all).weaken (fun n hn => ?_) fun fault hfault =>
          hfault.isInvalidHere hlt
        have hle : space.here ≤ n.space.here := hn.space.here_le
        have hnsize : n.space.size = config.dataSpace := hn.space.size.trans hsize
        refine ⟨⟨hvalid, ?_, ?_, ?_, ?_,
          hnsize, by omega, ?_, hn.capacity, hn.orderly (.empty _ _), ?_, ?_, ?_⟩, ?_⟩
        · rw [hn.rest]
        · rw [hn.rest]
        · rw [hn.rest]; exact Nat.zero_add _
        · rw [hn.rest]; exact Nat.zero_add _
        · exact hnsize ▸ hn.space.here_lt hlt
        · intro index p hp
          obtain ⟨d, hd, hdp⟩ := hn.new hp
          exact ⟨d, by rw [← hd]; congr 1; exact (Nat.zero_add _).symm, hdp⟩
        · rw [hn.rest]; exact Nat.zero_le _
        · intro span hspan
          rw [hn.rest] at hspan
          obtain ⟨hlow, hhigh⟩ := hspans span hspan
          simp only [DataSpace.empty, Nat.zero_add] at hlow
          exact ⟨hlow, Nat.le_trans hhigh hle⟩
        · intro token d hd
          have htoken : token < Primitive.all.length := by
            have := (Array.getElem?_eq_some_iff.mp hd).1
            have hcount : n.dictionary.entries.size = 0 + Primitive.all.length := hn.size
            omega
          obtain ⟨e, he, -, haction⟩ := hn.new (List.getElem?_eq_getElem htoken)
          rw [show n.dictionary.get? token =
            some e by rw [← he]; congr 1; exact (Nat.zero_add _).symm] at hd
          cases hd
          exact ⟨_, haction⟩

/-- A session that starts at one console and clock starts at every other, with the same machine
apart from them. -/
theorem fresh_environment {console : Console} {clock : Clock}
    (h : fresh config arguments console clock = .ok m) (other : Console) (time : Clock) :
    fresh config arguments other time = .ok { m with console := other, clock := time } := by
  unfold fresh at h ⊢
  obtain ⟨reserved, hreserved, h⟩ := bind_eq_ok.mp h
  obtain ⟨⟨space, spans⟩, hlaid, h⟩ := bind_eq_ok.mp h
  refine bind_eq_ok.mpr ⟨reserved, hreserved, bind_eq_ok.mpr ⟨(space, spans), hlaid, ?_⟩⟩
  refine (definePrimitives_environment
    ⟨config, arguments, .empty config.dataStack, .empty config.returnStack, space,
      .empty config.dictionary, none, none, 0, spans, console, clock⟩ Primitive.all other
        time).trans ?_
  dsimp only at h
  rw [h]
  rfl

end Machine

end ThreadedForth
