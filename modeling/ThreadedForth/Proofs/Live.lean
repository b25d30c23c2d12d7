import ThreadedForth.Proofs.SessionInduction
import ThreadedForth.Proofs.WellFormed

/-!
# Live sessions

A session is live from its start on, whatever has been done to it, and also while its host programs
are at work. Its machine is well-formed throughout. Consequently no operation finds data space
handed out to its end, the newest definition always exists, and a primitive's token always invokes
that primitive.
-/

namespace ThreadedForth

namespace Machine

variable {m n : Machine} {config : Config} {arguments : List String}

/-- The host programs in a machine's dictionary do only what is allowed. -/
def HostsObey (permit : Request → Prop) (tolerate : Halt → Prop) (m : Machine) : Prop :=
  ∀ token d code, m.dictionary.get? token = some d → d.action = .host code →
    code.Obeys permit tolerate

variable {permit : Request → Prop} {tolerate : Halt → Prop}

/-- A continued machine has the same host programs. -/
theorem HostsObey.continues (h : m.HostsObey permit tolerate) (hmn : m.Continues n) :
    n.HostsObey permit tolerate := by
  intro token d code hd hcode
  obtain ⟨e, he, -, haction, -⟩ := hmn.dictionary.symm.get? hd
  exact h token e code he (haction.trans hcode)

/-- A definition that is added brings in no host program but its own. -/
theorem HostsObey.define {name : String} {action : Action} {immediate : Bool} {token : Nat}
    (h : m.HostsObey permit tolerate) (hdefine : m.define name action immediate = .ok (token, n))
    (haction : ∀ code, action = .host code → code.Obeys permit tolerate) :
    n.HostsObey permit tolerate := by
  obtain ⟨-, -, rfl⟩ := define_eq_ok.mp hdefine
  intro other d code hd hcode
  rw [Dictionary.get?_push] at hd
  split at hd
  · cases hd; exact haction code hcode
  · exact h other d code hd hcode

/-- Where all definitions are primitives, there is no host program. -/
theorem HostsObey.of_primitives
    (h : ∀ token d, m.dictionary.get? token = some d → ∃ p, d.action = .primitive p) :
    m.HostsObey permit tolerate := by
  intro token d code hd hcode
  obtain ⟨p, hp⟩ := h token d hd
  rw [hp] at hcode
  cases hcode

/-- What holds throughout a session: the representation, and the obedience of its host programs. -/
def Sound (config : Config) (arguments : List String) (permit : Request → Prop)
    (tolerate : Halt → Prop) (m : Machine) : Prop :=
  m.WellFormed config arguments ∧ m.HostsObey permit tolerate

/-- Continuing a sound machine keeps it sound. -/
theorem Sound.continues (h : m.Sound config arguments permit tolerate) (hmn : m.Continues n) :
    n.Sound config arguments permit tolerate :=
  ⟨h.1.continues hmn, h.2.continues hmn⟩

/-- A steady change that happens or is refused keeps a machine sound. -/
theorem Sound.attempt (htolerate : ∀ reason, reason.isInvalidHere = false → tolerate reason)
    (h : m.Sound config arguments permit tolerate) {change : Except Fault Machine}
    (hchange : m.Steady change) :
    (m.attempt change).Meets (Sound config arguments permit tolerate) tolerate :=
  hchange.attempt.weaken (fun _ => h.continues) fun _ hreason =>
    htolerate _ (hreason.isInvalidHere h.1.here_lt_size)

/-- A reading that may be refused keeps a machine sound. -/
theorem Sound.inspect (htolerate : ∀ reason, reason.isInvalidHere = false → tolerate reason)
    (h : m.Sound config arguments permit tolerate) {α : Type} {reading : Except Fault α}
    (hreading : Meets (fun _ => True) m.Tolerates reading) :
    (m.inspect reading).Meets (Sound config arguments permit tolerate) tolerate := by
  cases reading with
  | ok value => exact h
  | error fault => exact ⟨h, htolerate _ (hreading.isInvalidHere h.1.here_lt_size)⟩

/-- Adding a definition keeps a machine sound. -/
theorem Sound.define (htolerate : ∀ reason, reason.isInvalidHere = false → tolerate reason)
    (h : m.Sound config arguments permit tolerate) (name : String) {action : Action}
    {immediate : Bool} (haction : ∀ code, action = .host code → code.Obeys permit tolerate) :
    (m.attemptWith (m.define name action immediate)).Meets
      (Sound config arguments permit tolerate) tolerate := by
  have htolerates := m.define_tolerates name action immediate
  unfold attemptWith
  split
  · next token n hdefine => exact ⟨h.1.define hdefine, h.2.define hdefine haction⟩
  · next fault hfault =>
      rw [hfault] at htolerates
      exact ⟨h, htolerate _ (htolerates.isInvalidHere h.1.here_lt_size)⟩

/-- Taking the top cell keeps a machine sound. -/
theorem Sound.pop (htolerate : ∀ reason, reason.isInvalidHere = false → tolerate reason)
    (h : m.Sound config arguments permit tolerate) :
    (m.attemptWith m.pop).Meets (Sound config arguments permit tolerate) tolerate := by
  have hpop : Meets (fun popped => m.Continues popped.2) m.Tolerates m.pop :=
    (tolerates_of_stack m.data.pop_conserves).bind fun _ hdata =>
      { Continues.refl m with data := hdata }
  unfold attemptWith
  split
  · next x n hx => rw [hx] at hpop; exact h.continues hpop
  · next fault hfault =>
      rw [hfault] at hpop
      exact ⟨h, htolerate _ (hpop.isInvalidHere h.1.here_lt_size)⟩

/-- Returning to the start of the session keeps a machine sound. -/
theorem Sound.reset (htolerate : ∀ reason, reason.isInvalidHere = false → tolerate reason)
    (h : m.Sound config arguments permit tolerate) :
    (m.attempt m.reset).Meets (Sound config arguments permit tolerate) tolerate := by
  have hfresh := fresh_meets h.1.valid arguments m.console m.clock
  unfold Machine.reset
  rw [h.1.config_eq, h.1.arguments_eq]
  unfold Machine.attempt
  split
  · next n hn =>
      rw [hn] at hfresh
      exact ⟨hfresh.1, .of_primitives hfresh.2⟩
  · next fault hfault =>
      rw [hfault] at hfresh
      exact ⟨h, htolerate _ hfresh⟩

/-- Soundness is an invariant of sessions: nothing that a session does breaks the representation,
and no halt says that data space has been handed out to its end unless host programs may say so. -/
theorem sound_invariant (htolerate : ∀ reason, reason.isInvalidHere = false → tolerate reason) :
    Invariant permit tolerate (Sound config arguments permit tolerate) where
  host h hd hcode := h.2 _ _ _ hd hcode
  refuses h hfault := htolerate _ (hfault.tolerates.isInvalidHere h.1.here_lt_size)
  effect {m p effect} h heffect := (Primitive.effect_steady heffect m).weaken (fun _ => h.continues)
    fun _ hreason => htolerate _ (hreason.isInvalidHere h.1.here_lt_size)
  call {m _ d} h _ _ := h.attempt htolerate (m.call_steady d.body)
  take h hcells := h.continues (continues_of_cells hcells)
  enter _ h := h.continues (.free _ _ _ _ _)
  move _ h := h.continues (.free _ _ _ _ _)
  request {m r host budget outcome} h _ hruns houtcome := by
    cases r <;> cases hruns <;> cases houtcome
    case push => exact h.attempt htolerate (m.push_steady _)
    case pop => exact h.pop htolerate
    case reset => exact h.reset htolerate
    case defineColon => exact h.define htolerate _ fun _ hcode => by cases hcode
    case compileCell | compileToken | compileLiteral =>
      exact h.attempt htolerate (steady_space rfl (m.space.appendCells_grows _))
    case setHidden => exact h.attempt htolerate (m.setHidden_steady _ _)
    case fetchCell => exact h.inspect htolerate (tolerates_of_reads (m.space.fetch_reads _))
    case storeCell => exact h.attempt htolerate (steady_space rfl (m.space.store_grows _ _))
    case readBytes => exact h.inspect htolerate (tolerates_of_reads (m.space.fetchBytes_reads _ _))
    case flush => exact h.inspect htolerate (Effect.flush_tolerates m)
    case find | source | isCompiling | toIn => exact h
    case setCursor => exact h.continues (.free m _ _ _ _)
  define {m} name {body} h hbody :=
    h.define htolerate name fun _ hcode => by cases hcode; exact hbody

/-- The machines of a session that was started with given capacities and arguments: at its start,
after any operation of the application, at the entry of a host program, whose requests are
operations again, and as the clock goes on. -/
inductive Live (config : Config) (arguments : List String) : Machine → Prop where
  | boot {console : Console} {clock : Clock} {m : Machine} :
      Machine.boot config arguments console clock = .ok m → Live config arguments m
  | perform {m : Machine} (operation : Operation) (budget : Nat)
      {outcome : Outcome operation.Reply} :
      Live config arguments m → operation.perform budget m = some outcome →
      Live config arguments outcome.machine
  | enter {m : Machine} (token : Cell) :
      Live config arguments m → Live config arguments (m.enter token)
  | tick {m : Machine} (clock : Clock) :
      Live config arguments m → Live config arguments { m with clock := clock }

/-- A session that starts does so with a valid configuration, and in the state at the start of a
session. -/
theorem boot_eq_ok {console : Console} {clock : Clock} :
    Machine.boot config arguments console clock = .ok m ↔
      config.Valid ∧ fresh config arguments console clock = .ok m := by
  unfold Machine.boot
  rw [← Config.validate_eq_ok]
  split
  · next error herror =>
      exact ⟨fun h => (nomatch h), fun h => by rw [herror] at h; exact (nomatch h.1)⟩
  · next hvalid =>
      split
      · next fault hfault =>
          exact ⟨fun h => (nomatch h), fun h => by rw [hfault] at h; exact (nomatch h.2)⟩
      · next n hn =>
          exact ⟨fun h => ⟨hvalid, by cases h; exact hn⟩,
            fun h => by rw [hn] at h; rw [Except.ok.inj h.2]⟩

/-- A session starts with a sound machine. -/
theorem sound_of_boot {console : Console} {clock : Clock}
    (h : Machine.boot config arguments console clock = .ok m) :
    m.Sound config arguments permit tolerate := by
  obtain ⟨hvalid, hfresh⟩ := boot_eq_ok.mp h
  have hmeets := fresh_meets hvalid arguments console clock
  rw [hfresh] at hmeets
  exact ⟨hmeets.1, .of_primitives hmeets.2⟩

/-- A session that starts has a machine. -/
theorem boot_isOk {console : Console} {clock : Clock}
    (h : (Machine.boot config arguments console clock).isOk = true) :
    ∃ m, Machine.boot config arguments console clock = .ok m := by
  cases hm : Machine.boot config arguments console clock with
  | error error => rw [hm] at h; cases h
  | ok m => exact ⟨m, rfl⟩

/-- Where everything is allowed, every operation does what is allowed. -/
theorem obeys_of_true (operation : Operation) :
    operation.Obeys (fun _ => True) (fun _ => True) := by
  cases operation with
  | ask request => trivial
  | define name body => exact body.obeys_of_forall (fun _ => trivial) fun _ => trivial

/-- The machine of a live session is well-formed. -/
theorem Live.wellFormed (live : Live config arguments m) : m.WellFormed config arguments := by
  suffices m.Sound config arguments (fun _ => True) (fun _ => True) from this.1
  induction live with
  | boot hboot => exact sound_of_boot hboot
  | @perform _ operation budget outcome _ houtcome ih =>
      have hmeets :=
        (sound_invariant fun _ _ => trivial).operation operation budget (obeys_of_true operation) ih
      exact (hmeets outcome houtcome).machine
  | enter token _ ih => exact ih.continues (.free _ _ _ _ _)
  | tick clock _ ih => exact ih.continues (.free _ _ _ _ _)

/-- A live session can be started again at every console and clock. -/
theorem Live.fresh_eq_ok (live : Live config arguments m) (console : Console) (clock : Clock) :
    ∃ n, fresh config arguments console clock = .ok n := by
  induction live with
  | boot hboot => exact ⟨_, fresh_environment (boot_eq_ok.mp hboot).2 console clock⟩
  | perform _ _ _ _ ih => exact ih
  | enter _ _ ih => exact ih
  | tick _ _ ih => exact ih

/-- A run that goes on with the value of an operation, and halts without effect if the operation is
refused. -/
def checked {α β : Type} (m : Machine) (operation : Except Fault α) (next : α → Run β) : Run β :=
  match operation with
  | .error fault => some (.halted (.fault fault) m)
  | .ok value => next value

/-- Invoking the token on top of the stack takes it off only once it is known to name a
definition. -/
theorem invokeTop_eq (host : HostRunner) (m : Machine) :
    invokeTop host m.data.cells m =
      m.checked m.pop fun popped => m.checked (m.resolve popped.1) fun d =>
        popped.2.invoke host popped.1 d := by
  unfold pop Stack.pop
  cases m.data.cells with
  | nil => rfl
  | cons token rest =>
      rw [invokeTop]
      simp only [bind, Except.bind, pure, Except.pure, checked]
      cases m.resolve token with
      | error fault => rfl
      | ok d => rfl

/-- A step invokes the definition that the cell at the cursor names, with the cursor behind that
cell. -/
theorem step_eq (host : HostRunner) (m : Machine) :
    m.step host = m.checked m.operand fun operand => m.checked (m.resolve operand.2) fun d =>
      { m with cursor := some (operand.1 + 8) }.invoke host operand.2 d := by
  unfold step
  cases m.operand with
  | error fault => rfl
  | ok operand =>
      simp only [bind, Except.bind, checked]
      cases m.resolve operand.2 with
      | error fault => rfl
      | ok d => rfl

/-- A range is written once its operands have been found and its bytes read. -/
theorem typeWord_eq (m : Machine) :
    some m.typeWord = m.checked (m.data.popPair >>= fun popped => do
        return (← m.space.fetchBytes popped.1 popped.2.1.toNat, popped.2.2)) fun taken =>
      some (m.writeThen taken.1 fun n => .done () { n with data := taken.2 }) := by
  unfold typeWord checked
  cases (m.data.popPair >>= fun popped => do
    return (← m.space.fetchBytes popped.1 popped.2.1.toNat, popped.2.2) : Except Fault
      (List UInt8 × Stack .data)) with
  | error fault => rfl
  | ok taken => rfl

/-- What invoking a primitive does, given its name and not its token. -/
def dispatch (host : HostRunner) (p : Primitive) (m : Machine) : Run Unit :=
  match p.effect? with
  | some effect => some (effect m)
  | none => invokeTop host m.data.cells m

end Machine

/-- The only primitive without an effect of its own is the one that invokes another word. -/
theorem Primitive.eq_execute_of_effect? {p : Primitive} (h : p.effect? = none) : p = .execute := by
  cases p <;> cases h
  rfl

/-- The primitive at the place that a primitive's token gives is the primitive itself. -/
theorem Primitive.all_getElem?_token (p : Primitive) : Primitive.all[p.token]? = some p := by
  cases p <;> rfl

/-- A primitive's token is below the number of primitives. -/
theorem Primitive.token_lt (p : Primitive) : p.token < Primitive.all.length :=
  (List.getElem?_eq_some_iff.mp p.all_getElem?_token).1

/-- A primitive's token is the same as a number and as a cell. -/
theorem Primitive.toNat_token (p : Primitive) : (UInt64.ofNat p.token).toNat = p.token := by
  have hlt : p.token < 77 := p.token_lt
  rw [UInt64.toNat_ofNat', Nat.mod_eq_of_lt (by omega)]

namespace Machine

variable {m : Machine} {config : Config} {arguments : List String}

/-- In a well-formed machine a primitive's token names the primitive. -/
theorem WellFormed.resolve_token (h : m.WellFormed config arguments) (p : Primitive) :
    ∃ d, m.resolve (UInt64.ofNat p.token) = .ok d ∧ d.name = p.name ∧ d.action = .primitive p := by
  obtain ⟨d, hd, hname, haction⟩ := h.primitive p.all_getElem?_token
  exact ⟨d, resolve_eq_ok.mpr (p.toNat_token.symm ▸ hd), hname, haction⟩

/-- Invoking a definition whose action is a primitive dispatches that primitive. -/
theorem invoke_of_primitive {d : Definition} {p : Primitive} (h : d.action = .primitive p)
    (host : HostRunner) (token : Cell) :
    m.invoke host token d = (m.enter token).dispatch host p := by
  unfold invoke carryOut
  rw [h]
  rfl

/-- A well-formed machine has at least the primitives. -/
theorem WellFormed.primitives_le (h : m.WellFormed config arguments) : 77 ≤ m.dictionary.size := by
  obtain ⟨d, hd, -⟩ := h.primitive Primitive.utcTimeAndDate.all_getElem?_token
  exact (Array.getElem?_eq_some_iff.mp hd).1

/-- The newest definition of a well-formed machine exists. -/
theorem WellFormed.latest?_eq (h : m.WellFormed config arguments) :
    m.dictionary.latest? = some (m.dictionary.size - 1) := by
  have hsize := h.primitives_le
  unfold Dictionary.latest?
  split
  · omega
  · next count hcount => rw [hcount]; rfl

/-- In a sound machine, operations that make nothing up never halt for data space handed out to its
end. -/
theorem Sound.result_ne_invalidHere
    (h : m.Sound config arguments (fun _ => True) fun reason => reason.isInvalidHere = false)
    {operation : Operation} {budget : Nat} {outcome : Outcome operation.Reply}
    (hoperation : operation.Obeys (fun _ => True) fun reason => reason.isInvalidHere = false)
    (houtcome : operation.perform budget m = some outcome) (here size : Nat) :
    outcome.result ≠ .error (.fault (.invalidHere here size)) := by
  have hmeets :=
    (sound_invariant fun _ hreason => hreason).operation operation budget hoperation h outcome
      houtcome
  cases outcome with
  | done value n => exact fun heq => (nomatch heq)
  | halted reason n =>
      intro heq
      cases heq
      exact (nomatch hmeets.2)

/-- Every machine of a session keeps its representation, after any operations whatever. No operation
halts for data space handed out to its end, unless a host program makes such a halt up; the words on
the newest definition find one; and the token of a primitive always invokes it. -/
theorem Live.representation (live : Live config arguments m) :
    m.WellFormed config arguments ∧
    (m.data.depth ≤ config.dataStack ∧ m.returns.depth ≤ config.returnStack) ∧
    (m.space.here + m.space.unused = config.dataSpace ∧ 1 ≤ m.space.unused) ∧
    (77 ≤ m.dictionary.size ∧ m.dictionary.size ≤ config.dictionary) ∧
    (m.HostsObey (fun _ => True) (fun reason => reason.isInvalidHere = false) →
      ∀ (operation : Operation) (budget : Nat) (outcome : Outcome operation.Reply),
        operation.Obeys (fun _ => True) (fun reason => reason.isInvalidHere = false) →
        operation.perform budget m = some outcome →
        ∀ here size, outcome.result ≠ .error (.fault (.invalidHere here size))) ∧
    (∀ index count, m.latestWord ≠ .error (.unknownIndex index count) ∧
      m.immediateWord ≠ .error (.unknownIndex index count)) ∧
    ∀ (host : HostRunner) (p : Primitive), ∃ d,
      m.resolve (UInt64.ofNat p.token) = .ok d ∧ d.name = p.name ∧
        m.invoke host (UInt64.ofNat p.token) d =
          (m.enter (UInt64.ofNat p.token)).dispatch host p := by
  have h := live.wellFormed
  have hhere := h.here_lt
  have hsize := h.space_size
  refine ⟨h, ⟨?_, ?_⟩, ?_, ⟨h.primitives_le, ?_⟩, ?_, ?_, ?_⟩
  · rw [← h.data_capacity]; exact Nat.le_add_right _ _
  · rw [← h.returns_capacity]; exact Nat.le_add_right _ _
  · simp only [DataSpace.unused]
    omega
  · rw [← h.dictionary_capacity]; exact h.orderly.size_le
  · intro hhosts operation budget outcome hoperation houtcome
    exact Sound.result_ne_invalidHere ⟨h, hhosts⟩ hoperation houtcome
  · intro index count
    refine ⟨?_, ?_⟩
    · unfold latestWord Stack.requireRoom
      rw [h.latest?_eq]
      split
      · exact fun heq => (nomatch heq)
      · change m.push _ ≠ _
        unfold push Stack.push
        split <;> exact fun heq => (nomatch heq)
    · unfold immediateWord
      rw [h.latest?_eq]
      exact fun heq => (nomatch heq)
  · intro host p
    obtain ⟨d, hd, hname, haction⟩ := h.resolve_token p
    exact ⟨d, hd, hname, invoke_of_primitive haction host _⟩

/-- A host word that fills two cells is carried out until data space is exhausted. It is refused
then, and will be, but never because data space has been handed out to its end. -/
theorem Live.representation_crowded :
    let config : Config := { dataSpace := 304, dictionary := 78 }
    let fill : HostCode :=
      .require (.compileCell 7) fun _ => .require (.compileCell 8) fun _ => .finish
    let execute : Operation := .ask (.execute 77)
    ∃ b s t m n : Machine, Machine.boot config ["forth"] Console.null {} = .ok b ∧
      (∃ token, (Operation.define "FILL" fill).perform 1 b = some (.done token s)) ∧
        execute.perform 1 s = some (.done () t) ∧
      execute.perform 1 t = some (.halted (.fault (.dataSpaceOverflow 8 7)) m) ∧
      m.WellFormed config ["forth"] ∧ m.space.here = 296 ∧ m.space.unused = 8 ∧
      m.dictionary.size = 78 ∧
      m.HostsObey (fun _ => True) (fun reason => reason.isInvalidHere = false) ∧
      execute.perform 1 m = some (.halted (.fault (.dataSpaceOverflow 8 7)) n) ∧
      ∀ budget outcome here size, execute.perform budget m = some outcome →
        outcome.result ≠ .error (.fault (.invalidHere here size)) := by
  intro config fill execute
  have hsession : ((Machine.boot config ["forth"] Console.null {}).toOption.any fun b =>
      ((Operation.define "FILL" fill).perform 1 b).endsWith none fun s =>
        (execute.perform 1 s).endsWith none fun t =>
          (execute.perform 1 t).endsWith (some (.fault (.dataSpaceOverflow 8 7))) fun m =>
            m.space.here == 296 && m.dictionary.size == 78 &&
              (execute.perform 1 m).endsWith (some (.fault (.dataSpaceOverflow 8 7))) fun _ =>
              true) = true := by
    decide +kernel
  have inv : Invariant (fun _ => True) (fun reason => reason.isInvalidHere = false)
      (Sound config ["forth"] (fun _ => True) fun reason => reason.isInvalidHere = false) :=
    sound_invariant fun _ hreason => hreason
  have hfill : fill.Obeys (fun _ => True) fun reason => reason.isInvalidHere = false :=
    ⟨trivial, fun _ => ⟨trivial, fun _ => trivial, fun _ hreason => hreason⟩,
      fun _ hreason => hreason⟩
  obtain ⟨b, hboot, hsession⟩ := exists_ok_of_any hsession
  obtain ⟨token, s, hdefine, hsession⟩ := Run.exists_done hsession
  obtain ⟨_, t, hfirst, hsession⟩ := Run.exists_done hsession
  obtain ⟨m, hsecond, hsession⟩ := Run.exists_halted hsession
  simp only [Bool.and_eq_true, beq_iff_eq] at hsession
  obtain ⟨⟨hhere, hsize⟩, hthird⟩ := hsession
  obtain ⟨n, hthird, -⟩ := Run.exists_halted hthird
  have hs := (inv.operation (.define "FILL" fill) 1 hfill (sound_of_boot hboot) _ hdefine).machine
  have ht := (inv.operation execute 1 trivial hs _ hfirst).machine
  have hm := (inv.operation execute 1 trivial ht _ hsecond).machine
  have live : Live config ["forth"] m :=
    (((Live.boot hboot).perform _ 1 hdefine).perform execute 1 hfirst).perform execute 1 hsecond
  obtain ⟨hwell, -, ⟨hspace, -⟩, -, hnever, -⟩ := live.representation
  have hunused : m.space.unused = 8 := by
    rw [hhere] at hspace
    exact Nat.add_left_cancel hspace
  exact ⟨b, s, t, m, n, hboot, ⟨token, hdefine⟩, hfirst, hsecond, hwell, hhere, hunused, hsize,
    hm.2, hthird, fun budget outcome here size houtcome =>
    hnever hm.2 execute budget outcome trivial houtcome here size⟩

end Machine

end ThreadedForth
