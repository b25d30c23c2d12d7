import ThreadedForth.Proofs.PaddedSession

/-!
# What programs cannot notice

Code without host words takes no notice of how much room there is, as long as there is enough, nor
of cells on the data stack below those that it uses. Sessions with larger stacks and a larger
dictionary give the same answers, other faults included; and steps that succeed do so on top of
further cells, with the same effect, unless these leave too little room. Only the time of day and,
in the second case, the depth of the stack must not be asked for.
-/

namespace ThreadedForth

namespace Machine

variable {m n : Machine}

/-- Adding primitives brings in no host word. -/
theorem HostFree.definePrimitives (h : m.HostFree) {table : List Primitive}
    (hdefine : m.definePrimitives table = .ok n) : n.HostFree := by
  induction table generalizing m with
  | nil =>
      cases hdefine
      exact h
  | cons p rest ih =>
      obtain ⟨⟨token, added⟩, hadded, hrest⟩ := bind_eq_ok.mp hdefine
      exact ih (h.define hadded nofun) hrest

/-- A session starts without host words. -/
theorem hostFree_of_fresh {config : Config} {arguments : List String} {console : Console}
    {clock : Clock} (h : fresh config arguments console clock = .ok m) : m.HostFree := by
  obtain ⟨reserved, -, h⟩ := bind_eq_ok.mp h
  obtain ⟨laid, -, h⟩ := bind_eq_ok.mp h
  refine HostFree.definePrimitives (fun token d code hd => ?_) h
  exact absurd hd (by simp [Dictionary.get?, Dictionary.empty])

/-- A request that runs no code brings in no host word. -/
theorem HostFree.perform (h : m.HostFree) {r : Request} (hruns : r.runsCode = false)
    {host : HostRunner} {budget : Nat} {outcome : Outcome r.Reply}
    (houtcome : r.perform host budget m = some outcome) : outcome.machine.HostFree := by
  by_cases hreset : r = .reset
  · subst hreset
    cases houtcome
    cases hfresh : m.reset with
    | ok n => exact hostFree_of_fresh hfresh
    | error fault => exact h
  · by_cases hcolon : ∃ name, r = .defineColon name
    · obtain ⟨name, rfl⟩ := hcolon
      cases houtcome
      cases hdefine : m.define name .nested false with
      | ok added => exact h.define hdefine nofun
      | error fault => exact h
    · exact h.continues (r.perform_continues hruns hreset
        (fun name heq => hcolon ⟨name, heq⟩) houtcome)

end Machine

/-- The second configuration has at least the capacities of the first, and the same data space and
input buffer. -/
structure Config.Within (small large : Config) : Prop where
  dataSpace : large.dataSpace = small.dataSpace
  inputBuffer : large.inputBuffer = small.inputBuffer
  dataStack : small.dataStack ≤ large.dataStack
  returnStack : small.returnStack ≤ large.returnStack
  dictionary : small.dictionary ≤ large.dictionary

/-- The padding that one configuration has in addition to another. -/
def Config.padding (small large : Config) : Padding where
  data := large.dataStack - small.dataStack
  returns := large.returnStack - small.returnStack
  dictionary := large.dictionary - small.dictionary

/-- The padding of a larger configuration makes up the difference. -/
theorem Config.Within.config_padding {small large : Config} (h : small.Within large) :
    (small.padding large).config small = large := by
  obtain ⟨space, data, returns, dictionary, buffer⟩ := large
  obtain ⟨hspace, hbuffer, hdata, hreturns, hdictionary⟩ := h
  dsimp only at hspace hbuffer hdata hreturns hdictionary
  simp only [Config.padding, Padding.config, Config.mk.injEq]
  omega

/-- A fault that says that a stack or the dictionary is full. -/
def Fault.isCapacity : Fault → Bool
  | .stackOverflow _ _ | .dictionaryFull _ => true
  | _ => false

/-- Without anything below the data stack, only a full stack or dictionary is an excuse. -/
theorem Padding.isCapacity_of_excuse {k : Padding} (hbelow : k.below = []) {fault : Fault}
    (h : k.excuse.first fault) : fault.isCapacity = true := by
  obtain hne | h := h
  · exact absurd hbelow hne
  · split at h
    · rfl
    · rfl
    · rfl
    · exact h.elim

/-- Where nothing has been written before, neither to the output nor to the log, the console is the
same. -/
theorem Padding.console_of_unwritten {k : Padding} (hwritten : k.written = #[])
    (hlogged : k.logged = []) (console : Console) : k.console console = console := by
  simp [Padding.console, Padding.output, hwritten, hlogged]

/-- Two machines with the same contents, whatever their capacities and clocks. -/
structure Machine.Agrees (m n : Machine) : Prop where
  data : n.data.cells = m.data.cells
  returns : n.returns.cells = m.returns.cells
  space : n.space = m.space
  entries : n.dictionary.entries = m.dictionary.entries
  cursor : n.cursor = m.cursor
  current : n.current = m.current
  line : n.lineLength = m.lineLength
  spans : n.spans = m.spans
  console : n.console = m.console

/-- Padding that is nothing but capacity leaves the contents the same. -/
theorem Machine.Padded.agrees {k : Padding} {m n : Machine} (h : m.Padded k n)
    (hbelow : k.below = []) (hwritten : k.written = #[]) (hlogged : k.logged = []) :
    m.Agrees n := by
  obtain ⟨hdata, hreturns, -⟩ := h
  refine ⟨?_, ?_, rfl, rfl, rfl, rfl, rfl, rfl, Padding.console_of_unwritten hwritten hlogged _⟩
  · exact hdata.cells.trans (by rw [hbelow, List.append_nil])
  · exact hreturns.cells.trans (List.append_nil _)

namespace Machine

variable {m n last : Machine} {k : Padding}

/-- Without host words, code goes the same way on a padded machine, and brings no host words in. -/
theorem hostFree_simulation (k : Padding) :
    Simulation k.excuse k.Permits fun m n => m.Padded k n ∧ m.HostFree :=
  k.simulation.restrict fun _ _ hfree hcontinues => hfree.continues hcontinues

/-- A request on a machine without host words is coupled with the request on a padded one. -/
theorem Padded.performHostFree (h : m.Padded k n) (hfree : m.HostFree) (hbelow : k.below = [])
    (r : Request) (host : HostRunner) (budget : Nat)
    (hwords : ∀ p ∈ r.trace host budget m, k.Permits p) :
    Run.Coupled k.excuse (fun s t => s.Padded k t ∧ s.HostFree) (r.perform host budget m)
      (r.perform host budget n) := by
  refine (hostFree_simulation k).perform (HostFree.couples _ _ host) budget r (fun hruns => ?_)
    ⟨h, hfree⟩ hwords
  exact (h.perform hbelow hruns host budget).imp fun outcome houtcome t hst =>
    ⟨hst, hfree.perform hruns houtcome⟩

/-- Sessions without host words match if the second has more capacity, whatever its clock. -/
theorem Padded.sessions (hmn : m.Padded k n) (hfree : m.HostFree) (hbelow : k.below = [])
    (htimed : ¬ k.timed) (times times' : Nat → Clock) (requests : List (Request × Nat))
    (hfirst : ∀ x ∈ session times (requests.map fun turn => (Operation.ask turn.1, turn.2)) m,
      ¬ Run.Faults (fun fault => fault.isCapacity = true) x.run ∧
      ∀ p ∈ x.words, p.readsClock = false) :
    List.Forall₂ (Exchange.Matches fun s t => s.Padded k t ∧ s.HostFree)
      (session times (requests.map fun turn => (Operation.ask turn.1, turn.2)) m)
      (session times' (requests.map fun turn => (Operation.ask turn.1, turn.2)) n) := by
  have hoperation : ∀ x ∈ requests.map fun turn => (Operation.ask turn.1, turn.2), ∀ s t : Machine,
      s.Padded k t ∧ s.HostFree → (∀ p ∈ x.1.trace x.2 s, k.Permits p) →
      Run.Coupled k.excuse (fun s t => s.Padded k t ∧ s.HostFree) (x.1.perform x.2 s)
        (x.1.perform x.2 t) := by
    intro x hx s t hst hpermit
    obtain ⟨⟨r, budget⟩, -, rfl⟩ := List.mem_map.mp hx
    exact hst.1.performHostFree hst.2 hbelow r _ budget hpermit
  have htick : ∀ turn (s t : Machine), s.Padded k t ∧ s.HostFree →
      Padded k { s with clock := times turn } { t with clock := times' turn } ∧
        HostFree { s with clock := times turn } := by
    rintro turn s _ ⟨⟨hdata, hreturns, -⟩, hfree⟩
    exact ⟨⟨hdata, hreturns, fun h => absurd h htimed⟩, hfree⟩
  have hsecond : ∀ fault, ¬ k.excuse.second fault := fun _ h => h.1 hbelow
  refine session_matches hsecond _ hoperation htick ⟨hmn, hfree⟩ fun x hx => ⟨?_, ?_⟩
  · intro hfaults
    exact (hfirst x hx).1 (hfaults.imp fun _ => Padding.isCapacity_of_excuse hbelow)
  · intro p hp
    exact ⟨fun _ => hbelow, fun hclock => absurd hclock
      (by rw [(hfirst x hx).2 p hp]; exact Bool.false_ne_true)⟩

/-- Larger capacities make no difference. If a session starts with a configuration, so does one with
larger stacks and a larger dictionary, and whatever is then asked of both, they give the same
answers and agree after each, as long as the first finds no stack and not the dictionary full and
does not read the clock. -/
theorem agrees_of_larger_capacities {small large : Config} (hwithin : small.Within large)
    (hvalid : large.validate = .ok ()) {arguments : List String} {console : Console} {clock : Clock}
    (hboot : boot small arguments console clock = .ok m) (clock' : Clock) :
    ∃ n, boot large arguments console clock' = .ok n ∧ m.Agrees n ∧
      ∀ (times times' : Nat → Clock) (requests : List (Request × Nat)),
        let operations := requests.map fun turn => (Operation.ask turn.1, turn.2)
        (∀ x ∈ session times operations m,
          ¬ Run.Faults (fun fault => fault.isCapacity = true) x.run ∧
          ∀ p ∈ x.words, p.readsClock = false) →
        List.Forall₂ (Exchange.Matches Agrees) (session times operations m)
          (session times' operations n) := by
  let k := small.padding large
  have hfresh := (boot_eq_ok.mp hboot).2
  have hcoupled : Coupled k.excuse (Padded k) (fresh small arguments console clock)
      (fresh (k.config small) arguments (k.console console) clock') :=
    fresh_coupled rfl small arguments console fun htimed => htimed.elim
  rw [hfresh, hwithin.config_padding, Padding.console_of_unwritten rfl rfl] at hcoupled
  obtain ⟨n, hn, hmn⟩ := hcoupled.exists_ok fun _ h => h.1 rfl
  refine ⟨n, boot_eq_ok.mpr ⟨Config.validate_eq_ok.mp hvalid, hn⟩, hmn.agrees rfl rfl rfl, ?_⟩
  intro times times' requests operations hfirst
  have hmatches := hmn.sessions (hostFree_of_fresh hfresh) rfl id times times' requests hfirst
  exact hmatches.imp (Exchange.Matches.imp fun s t hst => hst.1.agrees rfl rfl rfl)

/-- A definition is added and run, and operands are missing and a divisor zero, in a session whose
stacks and dictionary are just large enough, and with the default capacities. -/
theorem agrees_of_larger_capacities_default :
    let turns : List (Request × Nat) :=
      [(.defineColon "W", 9), (.compileToken (UInt64.ofNat Primitive.dup.token), 9),
        (.compileToken (UInt64.ofNat Primitive.exit.token), 9), (.push 3, 9), (.execute 77, 9),
        (.pop, 9), (.pop, 9), (.pop, 9), (.push 1, 9), (.push 0, 9),
        (.execute (UInt64.ofNat Primitive.slash.token), 9), (.reset, 9)]
    let operations := turns.map fun turn => (Operation.ask turn.1, turn.2)
    ∃ m n, boot { dataStack := 2, returnStack := 1, dictionary := 78 } [] .null {} = .ok m ∧
      boot {} [] .null {} = .ok n ∧ (session (fun _ => {}) operations m).length = 12 ∧
      List.Forall₂ (Exchange.Matches Agrees) (session (fun _ => {}) operations m)
        (session (fun _ => {}) operations n) := by
  intro turns operations
  have hsession :
      ((boot { dataStack := 2, returnStack := 1, dictionary := 78 } [] .null {}).toOption.any
        fun m =>
      (session (fun _ => {}) operations m).length == 12 &&
        (session (fun _ => {}) operations m).all fun x =>
          decide (¬ Run.Faults (fun fault => fault.isCapacity = true) x.run) &&
            x.words.all (·.readsClock == false)) = true := by decide +kernel
  obtain ⟨m, hm, hchecks⟩ := exists_ok_of_any hsession
  obtain ⟨hlength, hall⟩ := (Bool.and_eq_true _ _).mp hchecks
  have hwithin : Config.Within { dataStack := 2, returnStack := 1, dictionary := 78 } {} :=
    ⟨rfl, rfl, by decide, by decide, by decide⟩
  obtain ⟨n, hn, -, hmatches⟩ := agrees_of_larger_capacities hwithin (by decide) hm {}
  refine ⟨m, n, hm, hn, beq_iff_eq.mp hlength, hmatches _ _ turns fun x hx => ?_⟩
  obtain ⟨hfaults, hwords⟩ := (Bool.and_eq_true _ _).mp (List.all_eq_true.mp hall x hx)
  exact ⟨of_decide_eq_true hfaults, fun p hp => beq_iff_eq.mp (List.all_eq_true.mp hwords p hp)⟩

/-- Cells below those that steps use make no difference. Steps that all succeed on a machine without
host words, and that neither push the depth nor read the clock, also succeed with further cells at
the bottom of the data stack, which stay there, and apart from this and from the clock have the same
effect; or one of them finds the data stack full. -/
theorem steps_with_cells_below (hfree : m.HostFree) (host : HostRunner) (count : Nat)
    (hsteps : m.steps host count = some (count, .done () last))
    (hwords : ∀ p ∈ m.trace host (fun _ => false) count, p ≠ .depth ∧ p.readsClock = false)
    (below : List Cell) (data : Stack .data) (hdata : data.toList = below ++ m.data.toList)
    (hcapacity : data.capacity = m.data.capacity) (clock : Clock) :
    let deeper : Machine := { m with data := data, clock := clock }
    (∃ taken capacity stopped, taken < count ∧
        deeper.steps host count =
          some (taken, .halted (.fault (.stackOverflow .data capacity)) stopped)) ∨
      ∃ last', deeper.steps host count = some (count, .done () last') ∧
        last'.data.toList = below ++ last.data.toList ∧
        last' = { last with data := last'.data, clock := last'.clock } := by
  intro deeper
  let k : Padding := { below := below.reverse }
  have hpad : m.Padded k deeper := by
    have hpadded : m.Padded k (m.pad k data m.returns clock) := by
      refine ⟨⟨?_, ?_⟩, ⟨(List.append_nil _).symm, rfl⟩, fun htimed => htimed.elim⟩
      · rw [← List.reverse_inj, List.reverse_append, List.reverse_reverse]
        exact hdata
      · have hlength := congrArg List.length hdata
        simp only [Stack.toList, List.length_reverse, List.length_append] at hlength
        simp only [Stack.capacity, Stack.depth] at hcapacity
        simp only [k, List.length_reverse]
        omega
    rwa [pad, Padding.console_of_unwritten rfl rfl] at hpadded
  have hpermit : ∀ p ∈ m.trace host (fun _ => false) count, k.Permits p := fun p hp =>
    ⟨fun h => absurd h (hwords p hp).1,
      fun h => absurd h (by rw [(hwords p hp).2]; exact Bool.false_ne_true)⟩
  obtain ⟨taken, fault, stopped, htaken, ⟨-, capacity, rfl⟩, hstopped⟩ |
    ⟨last', hlast, ⟨hpadded, -⟩⟩ :=
    (hostFree_simulation k).steps (HostFree.couples _ _ host) count ⟨hpad, hfree⟩ hpermit hsteps
  · exact .inl ⟨taken, capacity, stopped, htaken, hstopped⟩
  · refine .inr ⟨last', hlast, ?_, ?_⟩
    · rw [Stack.toList, hpadded.data.cells, List.reverse_append, List.reverse_reverse]
      rfl
    · obtain ⟨-, hreturns, -⟩ := hpadded
      rw [pad, Padding.console_of_unwritten rfl rfl,
        Stack.eq_of_cells (hreturns.cells.trans (List.append_nil _)) hreturns.room]
      rfl

/-- The token of a word that doubles is on the stack, with two further cells below its operand. The
stack has room for them, so the steps succeed as they do without them. -/
theorem steps_with_cells_below_double :
    ∃ m last : Machine, m.HostFree ∧ m.data.toList = [5, UInt64.ofNat Primitive.dup.token] ∧
      m.steps (HostCode.run 0) 2 = some (2, .done () last) ∧ last.data.toList = [10] ∧
      m.trace (HostCode.run 0) (fun _ => false) 2 = [.execute, .dup, .plus] ∧
      let deeper : Machine :=
        { m with
          data := ⟨[UInt64.ofNat Primitive.dup.token, 5, 9, 7], 252⟩, clock := { waited := 3 } }
      ∃ last', deeper.steps (HostCode.run 0) 2 = some (2, .done () last') ∧
        last'.data.toList = [7, 9, 10] ∧
        last' = { last with data := last'.data, clock := last'.clock } := by
  let load (b : Machine) : Machine := { b with
    data := ⟨[UInt64.ofNat Primitive.dup.token, 5], 254⟩
    space := (b.space.setCell 272 (UInt64.ofNat Primitive.execute.token)).setCell 280
      (UInt64.ofNat Primitive.plus.token)
    cursor := some 272 }
  let deepen (b : Machine) : Machine :=
    { load b with
      data := ⟨[UInt64.ofNat Primitive.dup.token, 5, 9, 7], 252⟩, clock := { waited := 3 } }
  have hsession : ((boot {} [] .null {}).toOption.any fun b =>
      (load b).trace (HostCode.run 0) (fun _ => false) 2 == [.execute, .dup, .plus] &&
        (((load b).steps (HostCode.run 0) 2).any fun taken =>
          taken.1 == 2 && Run.endsWith (some taken.2) none (·.data.toList == [10])) &&
        ((deepen b).steps (HostCode.run 0) 2).any (·.1 == 2)) = true := by decide +kernel
  obtain ⟨b, hboot, hchecks⟩ := exists_ok_of_any hsession
  simp only [Bool.and_eq_true, beq_iff_eq, Option.any_eq_true] at hchecks
  obtain ⟨⟨htrace, ⟨_, _⟩, hsteps, rfl, hended⟩, deep, hdeep, htaken⟩ := hchecks
  obtain ⟨_, last, heq, hlast⟩ := Run.exists_done hended
  obtain rfl := Option.some.inj heq
  rw [beq_iff_eq] at hlast
  have hbooted : b.HostFree := hostFree_of_fresh (boot_eq_ok.mp hboot).2
  have hfree : (load b).HostFree := hbooted
  have hwords : ∀ p ∈ (load b).trace (HostCode.run 0) (fun _ => false) 2, p ≠ .depth ∧
      p.readsClock = false := by
    rw [htrace]
    decide
  refine ⟨load b, last, hfree, rfl, hsteps, hlast, htrace, ?_⟩
  rcases steps_with_cells_below hfree _ 2 hsteps hwords [7, 9]
    ⟨[UInt64.ofNat Primitive.dup.token, 5, 9, 7], 252⟩ rfl rfl { waited := 3 } with
    ⟨taken, _, _, hless, hstopped⟩ | hsucceeds
  · obtain rfl : deep = (taken, _) := Option.some.inj (hdeep.symm.trans hstopped)
    omega
  · rwa [hlast] at hsucceeds

end Machine

end ThreadedForth
