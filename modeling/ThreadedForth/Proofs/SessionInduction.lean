import ThreadedForth.Proofs.Continuation
import ThreadedForth.Session

/-!
# Induction over sessions

A property of machines that survives every single thing a session can do survives every operation,
however deeply its code runs host programs that run code again. What may be assumed of host programs
is a parameter: which requests they make, and which halts they raise of their own accord. The same
induction tells which halts an operation can end with.
-/

namespace ThreadedForth

/-- A host program makes only permitted requests and raises only tolerated halts, as long as the
halts it is answered with are tolerated too. The bodies of the words it adds do likewise. -/
def HostCode.Obeys (permit : Request → Prop) (tolerate : Halt → Prop) : HostCode → Prop
  | .done (.ok ()) => True
  | .done (.error reason) => tolerate reason
  | .ask request next => permit request ∧ (∀ reply, (next (.ok reply)).Obeys permit tolerate) ∧
      ∀ reason, tolerate reason → (next (.error reason)).Obeys permit tolerate
  | .define _ body next =>
      body.Obeys permit tolerate ∧ (∀ token, (next (.ok token)).Obeys permit tolerate) ∧
      ∀ reason, tolerate reason → (next (.error reason)).Obeys permit tolerate

/-- Where everything is allowed, every host program does what is allowed. -/
theorem HostCode.obeys_of_forall {permit : Request → Prop} {tolerate : Halt → Prop}
    (hpermit : ∀ r, permit r) (htolerate : ∀ reason, tolerate reason) (code : HostCode) :
    code.Obeys permit tolerate := by
  induction code with
  | done result =>
      cases result with
      | ok => trivial
      | error reason => exact htolerate reason
  | ask request next ih => exact ⟨hpermit request, fun _ => ih _, fun _ _ => ih _⟩
  | define name body next hbody ih => exact ⟨hbody, fun _ => ih _, fun _ _ => ih _⟩

/-- Whether a request runs code. -/
def Request.runsCode : Request → Bool
  | .execute _ | .step | .run => true
  | _ => false

/-- The outcome meets a contract that says nothing of halts if its machine does what the contract
says. -/
theorem Outcome.meets_of_machine {α : Type} {accept : Machine → Prop} {outcome : Outcome α}
    (h : accept outcome.machine) : outcome.Meets accept fun _ => True := by
  cases outcome with
  | done value n => exact h
  | halted reason n => exact ⟨h, trivial⟩

/-- An outcome that meets a contract has a machine that the contract accepts. -/
theorem Outcome.Meets.machine {α : Type} {accept : Machine → Prop} {tolerate : Halt → Prop}
    {outcome : Outcome α} (h : outcome.Meets accept tolerate) : accept outcome.machine := by
  cases outcome with
  | done value n => exact h
  | halted reason n => exact h.1

/-- A reading leaves the machine as it is. -/
theorem Machine.machine_inspect {α : Type} (m : Machine) (reading : Except Fault α) :
    (m.inspect reading).machine = m := by
  cases reading <;> rfl

/-- A request that runs no code leaves a machine that continues the old one, unless it resets the
machine or adds a definition. -/
theorem Request.perform_continues (r : Request) {m : Machine} {host : HostRunner} {budget : Nat}
    {outcome : Outcome r.Reply} (hruns : r.runsCode = false) (hreset : r ≠ .reset)
    (hcolon : ∀ name, r ≠ .defineColon name) (h : r.perform host budget m = some outcome) :
    m.Continues outcome.machine := by
  cases r <;> cases hruns <;> cases h
  case push => exact (m.push_steady _).attempt.machine
  case pop =>
    cases hpop : m.pop with
    | ok popped => exact Machine.continues_of_pop hpop
    | error fault => exact .refl m
  case reset => exact absurd rfl hreset
  case defineColon name => exact absurd rfl (hcolon name)
  case compileCell | compileToken | compileLiteral =>
    exact (Machine.steady_space rfl (m.space.appendCells_grows _)).attempt.machine
  case setHidden => exact (m.setHidden_steady _ _).attempt.machine
  case storeCell => exact (Machine.steady_space rfl (m.space.store_grows _ _)).attempt.machine
  case fetchCell | readBytes | flush => exact (m.machine_inspect _).symm ▸ .refl m
  case find | source | isCompiling | toIn => exact .refl m
  case setCursor => exact .free m _ _ _ _

/-- The faults that arise on the way to a definition, before it is carried out. -/
inductive Machine.Refuses (m : Machine) : Fault → Prop where
  | operand {fault : Fault} (h : m.operand = .error fault) : m.Refuses fault
  | resolve {token : Cell} {fault : Fault} (h : m.resolve token = .error fault) : m.Refuses fault
  | underflow : m.Refuses (m.data.underflow 1)

/-- Such a fault may be raised on the machine. -/
theorem Machine.Refuses.tolerates {m : Machine} {fault : Fault} (h : m.Refuses fault) :
    m.Tolerates fault := by
  cases h with
  | operand hoperand =>
      have htolerates := m.operand_tolerates
      rwa [hoperand] at htolerates
  | @resolve token _ hresolve =>
      have htolerates := m.resolve_tolerates token
      rwa [hresolve] at htolerates
  | underflow => exact .ordinary rfl

/-- A property of machines that nothing in a session breaks, with the host programs that may run and
the halts that may result. -/
structure Invariant (permit : Request → Prop) (tolerate : Halt → Prop) (holds : Machine → Prop) :
    Prop where
  host {m : Machine} {token : Nat} {d : Definition} {code : HostCode} : holds m →
    m.dictionary.get? token = some d → d.action = .host code → code.Obeys permit tolerate
  refuses {m : Machine} {fault : Fault} : holds m → m.Refuses fault → tolerate (.fault fault)
  effect {m : Machine} {p : Primitive} {effect : Effect} : holds m → p.effect? = some effect →
    (effect m).Meets holds tolerate
  call {m : Machine} {token : Nat} {d : Definition} : holds m → m.dictionary.get? token = some d →
    d.action = .nested → (m.attempt (m.call d.body)).Meets holds tolerate
  take {m : Machine} {x : Cell} {rest : List Cell} : holds m → m.data.cells = x :: rest →
    holds { m with data := { m.data with cells := rest, room := m.data.room + 1 } }
  enter {m : Machine} (token : Cell) : holds m → holds (m.enter token)
  move {m : Machine} (cursor : Option Cell) : holds m → holds { m with cursor := cursor }
  request {m : Machine} {r : Request} {host : HostRunner} {budget : Nat}
    {outcome : Outcome r.Reply} :
    holds m → permit r → r.runsCode = false → r.perform host budget m = some outcome →
    outcome.Meets holds tolerate
  define {m : Machine} (name : String) {body : HostCode} : holds m → body.Obeys permit tolerate →
    (m.attemptWith (m.define name (.host body) false)).Meets holds tolerate

/-- A run, if it ends, ends in an outcome that meets a contract. -/
def Run.Meets {α : Type} (holds : Machine → Prop) (tolerate : Halt → Prop) (run : Run α) : Prop :=
  ∀ outcome, run = some outcome → outcome.Meets holds tolerate

/-- Why an operation has halted, if it has. -/
def Outcome.reason? {α : Type} : Outcome α → Option Halt
  | .done _ _ => none
  | .halted reason _ => some reason

/-- Whether a run ends, with success or for a given reason, on a machine that passes a check. -/
def Run.endsWith {α : Type} (run : Run α) (reason : Option Halt) (check : Machine → Bool) : Bool :=
  run.any fun outcome => outcome.reason? == reason && check outcome.machine

/-- A run that passes the check for success has succeeded. -/
theorem Run.exists_done {α : Type} {run : Run α} {check : Machine → Bool}
    (h : run.endsWith none check = true) :
    ∃ value n, run = some (.done value n) ∧ check n = true := by
  rcases run with _ | ⟨value, n⟩ | ⟨reason, n⟩
  · cases h
  · exact ⟨value, n, rfl, h⟩
  · cases h

/-- A run that passes the check for a reason has halted for it. -/
theorem Run.exists_halted {α : Type} {run : Run α} {reason : Halt} {check : Machine → Bool}
    (h : run.endsWith (some reason) check = true) :
    ∃ n, run = some (.halted reason n) ∧ check n = true := by
  rcases run with _ | ⟨value, n⟩ | ⟨reason', n⟩
  · cases h
  · cases h
  · obtain ⟨hreason, hcheck⟩ := (Bool.and_eq_true _ _).mp h
    obtain rfl : reason' = reason := Option.some.inj (beq_iff_eq.mp hreason)
    exact ⟨n, rfl, hcheck⟩

/-- A way of carrying out host programs under which obedient ones keep a property. -/
def HostRunner.Keeps (permit : Request → Prop) (tolerate : Halt → Prop) (holds : Machine → Prop)
    (host : HostRunner) : Prop :=
  ∀ code m, code.Obeys permit tolerate → holds m → Run.Meets holds tolerate (host code m)

/-- A finished run meets the contract that its outcome meets. -/
theorem Run.meets_some {α : Type} {tolerate : Halt → Prop} {holds : Machine → Prop}
    {outcome : Outcome α} (h : outcome.Meets holds tolerate) :
    Run.Meets holds tolerate (some outcome) := by
  intro other hother
  cases hother
  exact h

/-- What invoking a definition does, with host programs carried out in a given way: machines with
one property are left with another one, and only tolerated halts result. -/
structure InvokeContract (host : HostRunner) (tolerate : Halt → Prop)
    (before after : Machine → Prop) : Prop where
  hosted {m : Machine} {token : Nat} {d : Definition} {code : HostCode} : before m →
    m.dictionary.get? token = some d → d.action = .host code →
    Run.Meets after tolerate (host code m)
  refuses {m : Machine} {fault : Fault} : before m → m.Refuses fault →
    after m ∧ tolerate (.fault fault)
  effect {m : Machine} {p : Primitive} {effect : Effect} : before m → p.effect? = some effect →
    (effect m).Meets after tolerate
  call {m : Machine} {token : Nat} {d : Definition} : before m → m.dictionary.get? token = some d →
    d.action = .nested → (m.attempt (m.call d.body)).Meets after tolerate
  take {m : Machine} {x : Cell} {rest : List Cell} : before m → m.data.cells = x :: rest →
    before { m with data := { m.data with cells := rest, room := m.data.room + 1 } }
  enter {m : Machine} (token : Cell) : before m → before (m.enter token)

namespace InvokeContract

variable {tolerate : Halt → Prop} {before after : Machine → Prop} {host : HostRunner}

/-- Carrying out a definition meets the contract if invoking the token on the stack does. -/
theorem carryOut (contract : InvokeContract host tolerate before after)
    {executeTop : Machine → Run Unit} {m : Machine} {token : Nat} {d : Definition} (hm : before m)
    (hd : m.dictionary.get? token = some d) (htop : Run.Meets after tolerate (executeTop m)) :
    Run.Meets after tolerate (m.carryOut host executeTop d) := by
  unfold Machine.carryOut
  split
  · split
    · next heffect => exact Run.meets_some (contract.effect hm heffect)
    · exact htop
  · next code haction => exact contract.hosted hm hd haction
  · next haction => exact Run.meets_some (contract.call hm hd haction)

/-- Invoking the token on the stack meets the contract, along a chain of such words of any
length. -/
theorem invokeTop (contract : InvokeContract host tolerate before after) (cells : List Cell)
    {m : Machine} (hm : before m) (hcells : m.data.cells = cells) :
    Run.Meets after tolerate (Machine.invokeTop host cells m) := by
  induction cells generalizing m with
  | nil => exact Run.meets_some (contract.refuses hm .underflow)
  | cons token rest ih =>
      rw [Machine.invokeTop]
      split
      · next fault hfault => exact Run.meets_some (contract.refuses hm (.resolve hfault))
      · next d hd =>
          have hpopped := contract.enter token (contract.take hm hcells)
          exact contract.carryOut hpopped (Machine.resolve_eq_ok.mp hd) (ih hpopped rfl)

/-- Invoking a definition meets the contract. -/
theorem invoke (contract : InvokeContract host tolerate before after) {m : Machine} {token : Cell}
    {d : Definition} (hm : before m) (hd : m.resolve token = .ok d) :
    Run.Meets after tolerate (m.invoke host token d) :=
  contract.carryOut (contract.enter token hm) (Machine.resolve_eq_ok.mp hd)
    (contract.invokeTop _ (contract.enter token hm) rfl)

/-- One step of threaded code meets the contract, if the machine may have its cursor moved on. -/
theorem step (contract : InvokeContract host tolerate before after) {m : Machine} (hm : before m)
    (hmove : ∀ slot, before { m with cursor := some slot }) :
    Run.Meets after tolerate (m.step host) := by
  unfold Machine.step
  cases hoperand : m.operand with
  | error fault => exact Run.meets_some (contract.refuses hm (.operand hoperand))
  | ok operand =>
      obtain ⟨slot, token⟩ := operand
      cases hresolve : m.resolve token with
      | error fault =>
          simp only [bind, Except.bind, hresolve]
          exact Run.meets_some (contract.refuses hm (.resolve hresolve))
      | ok d =>
          simp only [bind, Except.bind, pure, Except.pure, hresolve]
          exact contract.invoke (hmove _) hresolve

end InvokeContract

/-- A property of machines that code does not break, with host programs carried out in a given way,
and the halts that may result. Nothing is said here of the requests of an application. -/
structure CodeInvariant (host : HostRunner) (tolerate : Halt → Prop) (holds : Machine → Prop) :
    Prop extends
    InvokeContract host tolerate holds holds where
  move {m : Machine} (cursor : Option Cell) : holds m → holds { m with cursor := cursor }

/-- What continuing a machine keeps is an invariant of code, if host programs keep it. -/
theorem CodeInvariant.of_continues {host : HostRunner} {holds : Machine → Prop}
    (hkeep : ∀ ⦃m n : Machine⦄, holds m → m.Continues n → holds n)
    (hhost : ∀ ⦃m : Machine⦄ ⦃token : Nat⦄ ⦃d : Definition⦄ ⦃code : HostCode⦄, holds m →
      m.dictionary.get? token = some d → d.action = .host code →
        Run.Meets holds (fun _ => True) (host code m)) :
    CodeInvariant host (fun _ => True) holds where
  hosted hm hd haction := hhost hm hd haction
  refuses hm _ := ⟨hm, trivial⟩
  effect {m _ _} hm heffect :=
  Outcome.meets_of_machine (hkeep hm (Primitive.effect_steady heffect m).machine)
  call {m _ d} hm _ _ := Outcome.meets_of_machine (hkeep hm (m.call_steady d.body).attempt.machine)
  take hm hcells := hkeep hm (Machine.continues_of_cells hcells)
  enter _ hm := hkeep hm (.free _ _ _ _ _)
  move _ hm := hkeep hm (.free _ _ _ _ _)

namespace CodeInvariant

variable {tolerate : Halt → Prop} {holds : Machine → Prop} {host : HostRunner}

/-- One step of threaded code keeps an invariant. -/
theorem step (inv : CodeInvariant host tolerate holds) {m : Machine} (hm : holds m) :
    Run.Meets holds tolerate (m.step host) :=
  inv.toInvokeContract.step hm fun _ => inv.move _ hm

/-- Stepping up to a cursor keeps an invariant. -/
theorem stepUntil (inv : CodeInvariant host tolerate holds) (cursor : Option Cell) (budget : Nat)
    {m : Machine} (hm : holds m) : Run.Meets holds tolerate (m.stepUntil host cursor budget) := by
  induction budget generalizing m with
  | zero =>
      rw [Machine.stepUntil]
      split
      · exact Run.meets_some hm
      · intro outcome houtcome
        cases houtcome
  | succ budget ih =>
      rw [Machine.stepUntil]
      split
      · exact Run.meets_some hm
      · have hstep := inv.step hm
        split
        · next n hn => exact ih (hstep _ hn)
        · exact hstep

/-- Executing a token keeps an invariant. -/
theorem execute (inv : CodeInvariant host tolerate holds) (budget : Nat) (token : Cell)
    {m : Machine} (hm : holds m) : Run.Meets holds tolerate (m.execute host budget token) := by
  unfold Machine.execute
  split
  · next fault hfault => exact Run.meets_some (inv.refuses hm (.resolve hfault))
  · next d hd =>
      have hinvoke := inv.invoke hm hd
      split
      · next n hn =>
          split
          · exact inv.stepUntil _ _ (hinvoke _ hn)
          · exact Run.meets_some (hinvoke _ hn)
      · exact hinvoke

/-- A free run keeps an invariant up to the halt that ends it. -/
theorem run (inv : CodeInvariant host tolerate holds) (budget : Nat) {m : Machine} (hm : holds m) :
    Run.Meets holds tolerate (m.run host budget) := by
  induction budget generalizing m with
  | zero =>
      intro outcome houtcome
      cases houtcome
  | succ budget ih =>
      have hstep := inv.step hm
      rw [Machine.run]
      split
      · next n hn => exact ih (hstep _ hn)
      · next reason n hn => exact Run.meets_some (hstep _ hn)
      · intro outcome houtcome
        cases houtcome

/-- A request keeps an invariant of code if it does so where it runs none. -/
theorem perform (inv : CodeInvariant host tolerate holds) (budget : Nat) (r : Request) {m : Machine}
    (hrequest : r.runsCode = false → Run.Meets holds tolerate (r.perform host budget m))
    (hm : holds m) : Run.Meets holds tolerate (r.perform host budget m) := by
  cases hruns : r.runsCode with
  | false => exact hrequest hruns
  | true =>
      cases r with
      | execute token => exact inv.execute budget token hm
      | step => exact inv.step hm
      | run => exact inv.run budget hm
      | _ => cases hruns

end CodeInvariant

/-- An obedient host program meets a contract if the answers to its requests and the words that it
adds do. -/
theorem HostCode.runWith_meets {permit : Request → Prop} {tolerate : Halt → Prop}
    {holds : Machine → Prop} {answer : (r : Request) → Machine → Run r.Reply}
    (hanswer : ∀ r m, permit r → holds m → Run.Meets holds tolerate (answer r m))
    (hdefine : ∀ name body m, holds m → body.Obeys permit tolerate →
      (m.attemptWith (m.define name (.host body) false)).Meets holds tolerate)
    (code : HostCode) {m : Machine} (hcode : code.Obeys permit tolerate) (hm : holds m) :
    Run.Meets holds tolerate (code.runWith answer m) := by
  induction code generalizing m with
  | done result =>
      cases result with
      | ok => exact Run.meets_some hm
      | error reason => exact Run.meets_some ⟨hm, hcode⟩
  | ask r next ih =>
      have hreply := hanswer r m hcode.1 hm
      rw [HostCode.runWith]
      split
      · next reply n hn => exact ih _ (hcode.2.1 reply) (hreply _ hn)
      · next reason n hn =>
          have hhalted := hreply _ hn
          exact ih _ (hcode.2.2 reason hhalted.2) hhalted.1
      · intro outcome houtcome
        cases houtcome
  | define name body next hbody ih =>
      have hadded := hdefine name body m hm hcode.1
      unfold Machine.attemptWith at hadded
      rw [HostCode.runWith]
      split
      · next token n hn =>
          rw [hn] at hadded
          exact ih _ (hcode.2.1 token) hadded
      · next fault hfault =>
          rw [hfault] at hadded
          exact ih _ (hcode.2.2 _ hadded.2) hm

namespace Invariant

variable {permit : Request → Prop} {tolerate : Halt → Prop} {holds : Machine → Prop}
  {host : HostRunner}

/-- What nothing in a session breaks, code does not break. -/
theorem code (inv : Invariant permit tolerate holds)
    (hhost : HostRunner.Keeps permit tolerate holds host) : CodeInvariant host tolerate holds where
  hosted hm hd haction := hhost _ _ (inv.host hm hd haction) hm
  refuses hm hfault := ⟨hm, inv.refuses hm hfault⟩
  effect := inv.effect
  call := inv.call
  take := inv.take
  enter := inv.enter
  move := inv.move

/-- A permitted request keeps an invariant. -/
theorem perform (inv : Invariant permit tolerate holds)
    (hhost : HostRunner.Keeps permit tolerate holds host) (budget : Nat) (r : Request) {m : Machine}
    (hr : permit r) (hm : holds m) : Run.Meets holds tolerate (r.perform host budget m) :=
  (inv.code hhost).perform budget r (fun hruns _ houtcome => inv.request hm hr hruns houtcome) hm

/-- Host programs keep an invariant within every budget. -/
theorem hostRun (inv : Invariant permit tolerate holds) (budget : Nat) :
    HostRunner.Keeps permit tolerate holds (HostCode.run budget) := by
  induction budget with
  | zero =>
      intro code m hcode hm outcome houtcome
      cases houtcome
  | succ budget ih =>
      intro code m hcode hm
      exact HostCode.runWith_meets (fun r n hr hn => inv.perform ih budget r hr hn)
        (fun name _ _ hn hbody => inv.define name hn hbody) code hcode hm

end Invariant

/-- An operation of the application that makes a permitted request or adds an obedient host word. -/
def Operation.Obeys (permit : Request → Prop) (tolerate : Halt → Prop) : Operation → Prop
  | .ask request => permit request
  | .define _ body => body.Obeys permit tolerate

/-- An invariant survives every obedient operation, and every halt of such an operation is
tolerated. -/
theorem Invariant.operation {permit : Request → Prop} {tolerate : Halt → Prop}
    {holds : Machine → Prop} (inv : Invariant permit tolerate holds) (operation : Operation)
    (budget : Nat) {m : Machine} (hoperation : operation.Obeys permit tolerate) (hm : holds m) :
    Run.Meets holds tolerate (operation.perform budget m) := by
  cases operation with
  | ask r => exact inv.perform (inv.hostRun budget) budget r hoperation hm
  | define name body => exact Run.meets_some (inv.define name hm hoperation)

end ThreadedForth
