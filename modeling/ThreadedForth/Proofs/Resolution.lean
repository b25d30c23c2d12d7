import Mathlib.Data.List.Nodup
import ThreadedForth.Proofs.Invocation
import ThreadedForth.Proofs.Layout
import ThreadedForth.Proofs.Shadowing

/-!
# Resolving the names of primitives

A name can be resolved without a session, by a search of the table of primitives from its start, and
within one, by a search of the dictionary from its newest definition back. The two searches meet the
same primitive because no two of the names in the table are the same up to case and because every
session keeps the primitives in table order at the bottom of its dictionary. They agree on every
name that no later definition takes, as long as no primitive is hidden.
-/

namespace ThreadedForth

open Name (CaseEq)

namespace Primitive

variable {p q : Primitive} {name : String}

/-- The table has every primitive. -/
theorem mem_all (p : Primitive) : p ∈ all := List.mem_of_getElem? p.all_getElem?_token

/-- A primitive's place in the table is its token. -/
theorem token_eq_of_getElem? {index : Nat} (h : all[index]? = some p) : p.token = index := by
  have hnodup : all.Nodup := by decide
  obtain ⟨hlt, rfl⟩ := List.getElem?_eq_some_iff.mp h
  exact hnodup.idxOf_getElem index hlt

/-- No two primitives have names that are the same up to case. -/
theorem eq_of_caseEq (h : CaseEq (Name.bytes p.name) (Name.bytes q.name)) : p = q := by
  have hnodup : (all.map fun p => (Name.bytes p.name).map Name.foldCase).Nodup := by decide +kernel
  refine List.inj_on_of_nodup_map hnodup p.mem_all q.mem_all ?_
  rwa [← Name.same_iff, Name.same, beq_iff_eq] at h

/-- The search of the table finds the primitive of a name, which is the only one. -/
theorem ofName?_eq_some_iff :
    ofName? name = some p ↔ CaseEq (Name.bytes p.name) (Name.bytes name) := by
  unfold ofName?
  constructor
  · intro h
    have hsame := List.find?_some h
    exact Name.same_iff.mp hsame
  · intro hp
    cases hfind : all.find? fun p => Name.same (Name.bytes p.name) (Name.bytes name) with
    | none => exact absurd (Name.same_iff.mpr hp) (List.find?_eq_none.mp hfind p p.mem_all)
    | some q =>
        have hsame := List.find?_some hfind
        have hq : CaseEq (Name.bytes q.name) (Name.bytes name) := Name.same_iff.mp hsame
        rw [eq_of_caseEq ((hq.congr (Name.bytes p.name)).mpr hp)]

end Primitive

namespace Machine

variable {m n : Machine} {config : Config} {arguments : List String} {name : String}

/-- A name is left to the primitives: no later definition has it, up to case, and no primitive is
hidden. -/
structure LeavesToPrimitives (m : Machine) (name : String) : Prop where
  later {token : Nat} {d : Definition} : Primitive.all.length ≤ token →
    m.dictionary.get? token = some d →
    ¬ CaseEq (Name.bytes d.name) (Name.bytes name)
  visible {token : Nat} {d : Definition} : token < Primitive.all.length →
    m.dictionary.get? token = some d →
    d.hidden = false

/-- Lookup of such a name may answer with the token of a primitive of that name, and with nothing
else. -/
theorem WellFormed.answers_iff (hwell : m.WellFormed config arguments)
    (h : m.LeavesToPrimitives name) {token : Nat} :
    m.dictionary.Answers (Name.bytes name) token ↔
      ∃ p : Primitive, p.token = token ∧ CaseEq (Name.bytes p.name) (Name.bytes name) := by
  constructor
  · rintro ⟨d, hd, -, hcase⟩
    have hlt : token < Primitive.all.length := Nat.lt_of_not_le fun hle => h.later hle hd hcase
    have hp := List.getElem?_eq_getElem hlt
    obtain ⟨e, he, hname, -⟩ := hwell.primitive hp
    obtain rfl : d = e := Option.some.inj (hd.symm.trans he)
    exact ⟨_, Primitive.token_eq_of_getElem? hp, hname ▸ hcase⟩
  · rintro ⟨p, rfl, hcase⟩
    obtain ⟨d, hd, hname, -⟩ := hwell.primitive p.all_getElem?_token
    exact ⟨d, hd, h.visible p.token_lt hd, hname.symm ▸ hcase⟩

/-- The search of the dictionary and the search of the table meet the same primitive. -/
theorem WellFormed.find?_eq (hwell : m.WellFormed config arguments)
    (h : m.LeavesToPrimitives name) :
    m.find? name = (Primitive.ofName? name).map Primitive.token := by
  cases hname : Primitive.ofName? name with
  | none =>
      refine Dictionary.find?_eq_none_iff.mpr fun token hanswers => ?_
      obtain ⟨p, -, hcase⟩ := (hwell.answers_iff h).mp hanswers
      rw [Primitive.ofName?_eq_some_iff.mpr hcase] at hname
      cases hname
  | some p =>
      refine Dictionary.find?_eq_some_iff.mpr
        ⟨(hwell.answers_iff h).mpr ⟨p, rfl, ?_⟩, fun token hanswers => ?_⟩
      · exact Primitive.ofName?_eq_some_iff.mp hname
      · obtain ⟨q, rfl, hcase⟩ := (hwell.answers_iff h).mp hanswers
        rw [Primitive.ofName?_eq_some_iff.mpr hcase] at hname
        cases hname
        exact Nat.le_refl _

/-- A session starts with all names left to the primitives. -/
theorem leavesToPrimitives_of_boot {console : Console} {clock : Clock}
    (hboot : Machine.boot config arguments console clock = .ok m) (name : String) :
    m.LeavesToPrimitives name := by
  obtain ⟨-, rfl⟩ := boot_eq_ok_iff.mp hboot
  have hentries : ∀ {token d},
      (atStart config arguments console clock).dictionary.get? token = some d →
      ∃ p, Primitive.all[token]? = some p ∧
        p.entry (alignUp (config.argumentsEnd arguments)) = d := by
    intro token d hd
    simpa [Dictionary.get?, atStart] using hd
  constructor
  · intro token d hle hd
    obtain ⟨p, hp, -⟩ := hentries hd
    exact absurd (List.getElem?_eq_some_iff.mp hp).1 (Nat.not_lt.mpr hle)
  · intro token d _ hd
    obtain ⟨p, -, rfl⟩ := hentries hd
    rfl

/-- Static and dynamic resolution of a name agree. Lookup answers with the token of the primitive
that the table gives, and fails where the table has none. Executing that token dispatches that
primitive, and then goes through what it has entered; as only one primitive can enter anything,
executing any other comes to its effect. -/
structure ResolvesAlike (m : Machine) (name : String) : Prop where
  find?_eq : m.find? name = (Primitive.ofName? name).map Primitive.token
  execute_eq {p : Primitive} : Primitive.ofName? name = some p →
    ∀ (host : HostRunner) (budget : Nat), m.execute host budget (UInt64.ofNat p.token) =
      Run.andThen (dispatch host p { m with current := some p.token }) fun n =>
        if m.returns.depth < n.returns.depth then n.stepUntil host m.cursor budget
        else some (.done () n)
  effect_eq {p : Primitive} {effect : Effect} : Primitive.ofName? name = some p →
    p.effect? = some effect →
    ∀ (host : HostRunner) (budget : Nat),
      m.execute host budget (UInt64.ofNat p.token) =
        some (effect { m with current := some p.token })

/-- Both resolutions of a name that is left to the primitives agree. -/
theorem WellFormed.resolvesAlike (hwell : m.WellFormed config arguments)
    (h : m.LeavesToPrimitives name) : m.ResolvesAlike name where
  find?_eq := hwell.find?_eq h
  execute_eq {p} _ host budget := by
    obtain ⟨d, hd, -, haction⟩ := hwell.resolve_token p
    rw [Machine.execute_eq, hd]
    change Run.andThen (m.invoke host (UInt64.ofNat p.token) d) _ = _
    rw [invoke_of_primitive haction, enter_token]
  effect_eq {p _} _ heffect host budget := ((hwell.knows p).invokes heffect).execute host budget

/-- The table of primitives gives the one primitive of a name, up to case. In every live session the
dictionary agrees with it on every name that no later definition has, as long as no primitive is
hidden, and the token that is found dispatches that primitive. At the start of a session and after a
reset it agrees on every name. -/
theorem Live.resolves_alike (live : Live config arguments m) :
    (∀ name p, Primitive.ofName? name = some p ↔ CaseEq (Name.bytes p.name) (Name.bytes name)) ∧
    (∀ name, m.LeavesToPrimitives name → m.ResolvesAlike name) ∧
    (∀ console clock booted, Machine.boot config arguments console clock = .ok booted →
      ∀ name, booted.ResolvesAlike name) ∧
    (∃ restarted, m.reset = .ok restarted ∧ ∀ name, restarted.ResolvesAlike name) := by
  have hwell := live.wellFormed
  have hstart : ∀ console clock booted, Machine.boot config arguments console clock = .ok booted →
      ∀ name, booted.ResolvesAlike name := by
    intro console clock booted hboot name
    exact (Live.boot hboot).wellFormed.resolvesAlike (leavesToPrimitives_of_boot hboot name)
  refine ⟨fun _ _ => Primitive.ofName?_eq_some_iff, fun name h => hwell.resolvesAlike h, hstart, ?_⟩
  obtain ⟨restarted, hfresh⟩ := live.fresh_eq_ok m.console m.clock
  refine ⟨restarted, ?_, hstart m.console m.clock restarted (boot_eq_ok.mpr ⟨hwell.valid, hfresh⟩)⟩
  rw [reset, hwell.config_eq, hwell.arguments_eq, hfresh]

/-- In a session with a definition of its own, a primitive is found in either letter case, and an
unknown name in neither way. Under the name of that definition the two resolutions differ before a
reset, and agree after it. -/
theorem Live.resolves_alike_extended :
    ∃ m restarted, Live {} [] m ∧ m.dictionary.size = 78 ∧
      m.LeavesToPrimitives "dUp" ∧ m.find? "dUp" = some Primitive.dup.token ∧
      m.LeavesToPrimitives "dup2" ∧ m.find? "dup2" = none ∧
      m.find? "Square" = some 77 ∧ Primitive.ofName? "Square" = none ∧
      m.reset = .ok restarted ∧ restarted.find? "Square" = none := by
  have hsession : afterItems {} [] (fun k =>
      ((Operation.ask (.defineColon "SQUARE")).perform 0 k).endsWith none fun m =>
        m.dictionary.size == 78 && m.find? "Square" == some 77 &&
          (List.range 77).all (fun token => (m.dictionary.get? token).all (!·.hidden)) &&
          (m.dictionary.get? 77).any (·.name == "SQUARE")) = true := by decide +kernel
  obtain ⟨k, klive, hdefine⟩ := live_of_afterItems hsession
  obtain ⟨_, m, hdefined, hchecks⟩ := Run.exists_done hdefine
  have live : Live {} [] m := klive.perform _ _ hdefined
  simp only [Bool.and_eq_true, beq_iff_eq, List.all_eq_true, List.mem_range, Option.all_eq_true,
    Bool.not_eq_true', Option.any_eq_true] at hchecks
  obtain ⟨⟨⟨hsize, hsquare⟩, hvisible⟩, square, hget, hname⟩ := hchecks
  have hleaves : ∀ name, ¬ CaseEq (Name.bytes "SQUARE") (Name.bytes name) →
      m.LeavesToPrimitives name := by
    refine fun name hother =>
      ⟨fun {token d} hle hd => ?_, fun {token d} hlt hd => hvisible token hlt d hd⟩
    have hlt : token < 78 := hsize ▸ (Array.getElem?_eq_some_iff.mp hd).1
    obtain rfl : token = 77 := Nat.le_antisymm (Nat.le_of_lt_succ hlt) hle
    obtain rfl : square = d := Option.some.inj (hget.symm.trans hd)
    rwa [hname]
  have hfirst : m.LeavesToPrimitives "dUp" :=
    hleaves "dUp" (by rw [← Name.same_iff]; decide +kernel)
  have hsecond : m.LeavesToPrimitives "dup2" :=
    hleaves "dup2" (by rw [← Name.same_iff]; decide +kernel)
  obtain ⟨-, halike, -, restarted, hreset, hrestarted⟩ := live.resolves_alike
  refine ⟨m, restarted, live, hsize, hfirst, ?_, hsecond, ?_,
    hsquare, by decide +kernel, hreset, ?_⟩
  · rw [(halike "dUp" hfirst).find?_eq]
    decide +kernel
  · rw [(halike "dup2" hsecond).find?_eq]
    decide +kernel
  · rw [(hrestarted "Square").find?_eq]
    decide +kernel

end Machine

end ThreadedForth
