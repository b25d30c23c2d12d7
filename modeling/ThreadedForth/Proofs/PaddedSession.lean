import ThreadedForth.Proofs.PaddedMachine

/-!
# Sessions with padding

Building operations and requests take no more notice of a machine's padding than primitives do,
except that a session that starts again has nothing below its data stack. So the padding of a
machine gives a simulation of its code, and if nothing is below the data stack also of the requests
made to it.
-/

namespace ThreadedForth

namespace Padding

variable (k : Padding)

/-- Adding a definition takes no notice of the capacity, unless the dictionary is full without the
additional one. -/
theorem append_coupled (d : Dictionary) (definition : Definition) :
    Coupled k.excuse (fun x y => y = (x.1, k.definitions x.2)) (d.append definition)
      ((k.definitions d).append definition) := by
  have hcapacity : (k.definitions d).capacity = d.capacity + k.dictionary := rfl
  have hsize : (k.definitions d).size = d.size := rfl
  unfold Dictionary.append Dictionary.checkAppend
  split
  · exact .error _
  · rw [hcapacity, hsize]
    by_cases hfull : d.capacity ≤ d.size
    · rw [if_pos hfull]
      by_cases hextra : k.dictionary = 0
      · rw [hextra, Nat.add_zero, if_pos hfull]
        exact .error _
      · exact .first _ (.inr hextra)
    · rw [if_neg hfull, if_neg (by omega)]
      exact .ok rfl

end Padding

namespace Machine

variable {k : Padding} {m n : Machine}

/-- Adding a definition is coupled on a padded machine, with the same token. -/
theorem Padded.define (h : m.Padded k n) (name : String) (action : Action) (immediate : Bool) :
    Coupled k.excuse (fun x y => y.1 = x.1 ∧ x.2.Padded k y.2) (m.define name action immediate)
      (n.define name action immediate) := by
  obtain ⟨hdata, hreturns, hclock⟩ := h
  refine (k.append_coupled m.dictionary _).bind fun x y hxy => ?_
  subst hxy
  exact .same m.space.align fun space => .ok ⟨rfl, hdata, hreturns, hclock⟩

/-- Adding primitives is coupled on a padded machine. -/
theorem Padded.definePrimitives (h : m.Padded k n) (table : List Primitive) :
    Coupled k.excuse (Padded k) (m.definePrimitives table) (n.definePrimitives table) := by
  induction table generalizing m n with
  | nil => exact .ok h
  | cons p rest ih =>
      exact (h.define p.name (.primitive p) p.isImmediate).bind fun x y hxy => ih hxy.2

/-- Starting a session is coupled with starting a padded one, if nothing is to be below the data
stack. -/
theorem fresh_coupled (hbelow : k.below = []) (config : Config) (arguments : List String)
    (console : Console) {clock clock' : Clock} (hclock : k.timed → clock' = clock) :
    Coupled k.excuse (Padded k) (fresh config arguments console clock)
      (fresh (k.config config) arguments (k.console console) clock') := by
  refine .same ((DataSpace.empty config.dataSpace).reserve config.systemArea) fun reserved => ?_
  refine .same (layArguments reserved arguments) fun laid =>
    Padded.definePrimitives ?_ Primitive.all
  refine ⟨⟨?_, ?_⟩, ⟨rfl, rfl⟩, hclock⟩
  · rw [hbelow]
    rfl
  · rw [hbelow]
    rfl

/-- Taking a cell off the data stack is coupled on a padded machine, with the same cell. -/
theorem Padded.taken (h : m.Padded k n) :
    Coupled k.excuse (fun x y => y.1 = x.1 ∧ x.2.Padded k y.2) m.pop n.pop :=
  h.data.pop k.covers_data fun _ _ _ hdata => .ok ⟨rfl, h.withData hdata⟩

/-- Appending cells at the end of data space. -/
theorem Padded.appendCells (h : m.Padded k n) (cells : List Cell) :
    Coupled k.excuse (Padded k) (do return { m with space := ← m.space.appendCells cells })
      (do return { n with space := ← n.space.appendCells cells }) :=
  h.changeSpace (·.appendCells cells) h.data

/-- A request that runs no code is coupled on a padded machine, if nothing is below the data
stack. -/
theorem Padded.perform (h : m.Padded k n) (hbelow : k.below = []) {r : Request}
    (hruns : r.runsCode = false) (host : HostRunner) (budget : Nat) :
    Run.Coupled k.excuse (Padded k) (r.perform host budget m) (r.perform host budget n) := by
  have hspace := h.space
  cases r <;> cases hruns
  case push x => exact .attempt h (h.push x)
  case pop => exact .attemptWith h h.taken
  case reset =>
    obtain ⟨hdata, hreturns, hclock⟩ := h
    exact .attempt ⟨hdata, hreturns, hclock⟩
      (fresh_coupled hbelow m.config m.arguments m.console hclock)
  case find name =>
    have hfind : n.find? name = m.find? name := by
      obtain ⟨-, -, -⟩ := h
      exact k.find?_definitions m.dictionary _
    rw [Request.perform, Request.perform, hfind]
    exact .both (.done _ h)
  case defineColon name => exact .attemptWith h (h.define name .nested false)
  case compileCell | compileToken | compileLiteral => exact .attempt h (h.appendCells _)
  case setHidden token hidden => exact .attempt h (setHidden_ignores token hidden h)
  case storeCell address x => exact .attempt h (h.changeSpace (·.store address x) h.data)
  case fetchCell | readBytes =>
    rw [Request.perform, Request.perform, hspace]
    exact .inspect h _
  case setCursor | source | isCompiling | toIn =>
    obtain ⟨hdata, hreturns, hclock⟩ := h
    exact .both (.done _ ⟨hdata, hreturns, hclock⟩)
  case flush =>
    obtain ⟨hdata, hreturns, hclock⟩ := h
    exact .inspect ⟨hdata, hreturns, hclock⟩ m.flush

end Machine

/-- A padded machine goes the same way as the machine without the padding. -/
theorem Padding.simulation (k : Padding) : Simulation k.excuse k.Permits (Machine.Padded k) where
  cursor h := by
    obtain ⟨-, -, -⟩ := h
    rfl
  depth h := h.returns.depth_eq
  operand h := by
    obtain ⟨-, -, -⟩ := h
    rfl
  resolve token h := by
    obtain ⟨-, -, -⟩ := h
    rfl
  enter token h := by
    obtain ⟨hdata, hreturns, hclock⟩ := h
    exact ⟨hdata, hreturns, hclock⟩
  move cursor h := by
    obtain ⟨hdata, hreturns, hclock⟩ := h
    exact ⟨hdata, hreturns, hclock⟩
  pop h := h.taken
  call body h := Machine.call_ignores body h
  effect h hp heffect := Primitive.effect_ignores hp heffect h

namespace Machine

variable {m n : Machine}

/-- A machine without host words. -/
def HostFree (m : Machine) : Prop :=
  ∀ token d code, m.dictionary.get? token = some d → d.action ≠ .host code

/-- A continued machine has no host words either. -/
theorem HostFree.continues (h : m.HostFree) (hmn : m.Continues n) : n.HostFree := by
  intro token d code hd hcode
  obtain ⟨e, he, -, haction, -⟩ := hmn.dictionary.symm.get? hd
  exact h token e code he (haction.trans hcode)

/-- Adding a definition of another kind brings in no host word. -/
theorem HostFree.define {name : String} {action : Action} {immediate : Bool} {token : Nat}
    (h : m.HostFree) (hdefine : m.define name action immediate = .ok (token, n))
    (haction : ∀ code, action ≠ .host code) : n.HostFree := by
  obtain ⟨-, -, rfl⟩ := define_eq_ok.mp hdefine
  intro other d code hd
  rw [Dictionary.get?_push] at hd
  split at hd
  · cases hd
    exact haction code
  · exact h other d code hd

/-- Where there are no host words, it does not matter how they would be carried out. -/
theorem HostFree.couples (e : Excuse) (rel : Machine → Machine → Prop) (host : HostRunner) :
    HostRunner.Couples e (fun m n => rel m n ∧ m.HostFree) host :=
  fun _ _ _ _ _ h hget haction => absurd haction (h.2 _ _ _ hget)

end Machine

end ThreadedForth
