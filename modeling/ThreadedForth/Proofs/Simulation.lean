import Mathlib.Data.List.Forall2
import ThreadedForth.Proofs.Live

/-!
# Two machines side by side

Two machines that correspond to each other are taken through the same code, or through the same
session. A simulation says that every single thing that code can do keeps the correspondence and
ends alike on both sides; what holds of runs, requests and sessions then follows by induction. Two
machines may part only by a fault that has been named in advance, an excuse, on the first or on the
second side. Some correspondences hold only as long as certain primitives stay out of action, so it
is also recorded which primitives a run invokes.
-/

namespace ThreadedForth

/-- The primitives that a definition brings into action, given those that the token on the stack
would. -/
def Definition.invokes (top : List Primitive) (d : Definition) : List Primitive :=
  match d.action with
  | .primitive p =>
      match p.effect? with
      | some _ => [p]
      | none => p :: top
  | .host _ | .nested => []

/-- The primitives that come into action when the first cell is invoked as a token, the others being
those on the data stack. -/
def Dictionary.invoked (dictionary : Dictionary) : List Cell → List Primitive
  | [] => []
  | token :: rest =>
      match dictionary.get? token.toNat with
      | some d => d.invokes (dictionary.invoked rest)
      | none => []

namespace Machine

/-- The primitives that the next step invokes. -/
def stepTrace (m : Machine) : List Primitive :=
  match m.operand with
  | .ok (_, token) => m.dictionary.invoked (token :: m.data.cells)
  | .error _ => []

/-- The primitives that successive steps invoke, until one halts, a condition is met or the budget
is used up. -/
def trace (host : HostRunner) (stop : Machine → Bool) : Nat → Machine → List Primitive
  | 0, _ => []
  | budget + 1, m =>
      if stop m then []
      else m.stepTrace ++ (match m.step host with
        | some (.done () n) => n.trace host stop budget
        | _ => [])

/-- The primitives that executing a token invokes. -/
def executeTrace (host : HostRunner) (budget : Nat) (token : Cell) (m : Machine) : List Primitive :=
  match m.resolve token with
  | .error _ => []
  | .ok d => m.dictionary.invoked (token :: m.data.cells) ++ (match m.invoke host token d with
      | some (.done () n) =>
          if m.returns.depth <
            n.returns.depth then n.trace host (fun o => o.cursor = m.cursor) budget else []
      | _ => [])

end Machine

/-- The primitives that a request invokes, apart from those that host programs ask for. -/
def Request.trace (host : HostRunner) (budget : Nat) (m : Machine) : Request → List Primitive
  | .execute token => m.executeTrace host budget token
  | .step => m.stepTrace
  | .run => m.trace host (fun _ => false) budget
  | _ => []

/-- The primitives that an operation invokes, apart from those that host programs ask for. -/
def Operation.trace (budget : Nat) (m : Machine) : Operation → List Primitive
  | .ask request => request.trace (HostCode.run budget) budget m
  | .define _ _ => []

variable {α β : Type}

/-- The faults by which the first and the second of two machines may part from the other one. -/
structure Excuse where
  first : Fault → Prop
  second : Fault → Prop

/-- Two operations that give corresponding values or are refused with the same fault, unless one is
excused. -/
inductive Coupled (e : Excuse) (rel : α → β → Prop) : Except Fault α → Except Fault β → Prop where
  | ok {x : α} {y : β} : rel x y → Coupled e rel (.ok x) (.ok y)
  | error (fault : Fault) : Coupled e rel (.error fault) (.error fault)
  | first {fault : Fault} (y : Except Fault β) : e.first fault → Coupled e rel (.error fault) y
  | second {fault : Fault} (x : Except Fault α) : e.second fault → Coupled e rel x (.error fault)

namespace Coupled

variable {α' β' : Type} {e : Excuse} {rel : α → β → Prop} {rel' : α' → β' → Prop}

/-- Couplings compose along sequencing. -/
theorem bind {x : Except Fault α} {y : Except Fault β} {f : α → Except Fault α'}
    {g : β → Except Fault β'} (h : Coupled e rel x y)
    (hfg : ∀ a b, rel a b → Coupled e rel' (f a) (g b)) : Coupled e rel' (x >>= f) (y >>= g) := by
  cases h with
  | ok hab => exact hfg _ _ hab
  | error fault => exact .error fault
  | first _ hfault => exact .first _ hfault
  | second _ hfault => exact .second _ hfault

/-- Operations that have their first part in common are coupled if the rest is. -/
theorem same (x : Except Fault α) {f : α → Except Fault α'} {g : α → Except Fault β'}
    (hfg : ∀ a, Coupled e rel' (f a) (g a)) : Coupled e rel' (x >>= f) (x >>= g) := by
  cases x with
  | ok a => exact hfg a
  | error fault => exact .error fault

/-- Coupled operations may have values that correspond in another way too. -/
theorem imp {rel' : α → β → Prop} {x : Except Fault α} {y : Except Fault β} (h : Coupled e rel x y)
    (himp : ∀ a b, x = .ok a → rel a b → rel' a b) : Coupled e rel' x y := by
  cases h with
  | ok hab => exact .ok (himp _ _ rfl hab)
  | error fault => exact .error fault
  | first _ hfault => exact .first _ hfault
  | second _ hfault => exact .second _ hfault

/-- What is coupled with an operation that succeeds does so too, if it has no excuse. -/
theorem exists_ok {a : α} {y : Except Fault β} (h : Coupled e rel (.ok a) y)
    (hsecond : ∀ fault, ¬ e.second fault) : ∃ b, y = .ok b ∧ rel a b := by
  cases h with
  | ok hab => exact ⟨_, rfl, hab⟩
  | second _ hfault => exact absurd hfault (hsecond _)

/-- An operation is coupled with itself. -/
theorem refl (x : Except Fault α) : Coupled e Eq x x := by
  cases x with
  | ok a => exact .ok rfl
  | error fault => exact .error fault

end Coupled

/-- Two runs that end alike, on corresponding machines. -/
inductive Run.Matches (rel : Machine → Machine → Prop) : Run α → Run α → Prop where
  | exhausted : Run.Matches rel none none
  | done (value : α) {m n : Machine} :
      rel m n → Run.Matches rel (some (.done value m)) (some (.done value n))
  | halted (reason : Halt) {m n : Machine} :
      rel m n → Run.Matches rel (some (.halted reason m)) (some (.halted reason n))

/-- A run that ends with a fault of a given kind. -/
inductive Run.Faults (kind : Fault → Prop) : Run α → Prop where
  | intro {fault : Fault} (m : Machine) :
      kind fault → Run.Faults kind (some (.halted (.fault fault) m))

/-- A fault of one kind may be one of another. -/
theorem Run.Faults.imp {kind kind' : Fault → Prop} {run : Run α} (h : run.Faults kind)
    (himp : ∀ fault, kind fault → kind' fault) : run.Faults kind' := by
  cases h with
  | intro m hfault => exact ⟨m, himp _ hfault⟩

/-- No run ends with a fault of a kind that has none. -/
theorem Run.not_faults {kind : Fault → Prop} (h : ∀ fault, ¬ kind fault) (run : Run α) :
    ¬ run.Faults kind := by
  intro hfaults
  cases hfaults with
  | intro m hfault => exact h _ hfault

/-- Whether a run ends with a fault of a kind can be told if it can be told of faults. -/
instance Run.decidableFaults (kind : Fault → Prop) [DecidablePred kind] (run : Run α) :
    Decidable (run.Faults kind) :=
  match run with
  | some (.halted (.fault fault) m) =>
      decidable_of_iff (kind fault) ⟨.intro m, fun h => by cases h; assumption⟩
  | some (.halted .bye _) | some (.done _ _) | none => .isFalse fun h => by cases h

/-- Two runs that match, unless one of them is excused. -/
inductive Run.Coupled (e : Excuse) (rel : Machine → Machine → Prop) (run run' : Run α) : Prop where
  | both (h : Run.Matches rel run run')
  | first (h : Run.Faults e.first run)
  | second (h : Run.Faults e.second run')

namespace Run

variable {e : Excuse} {rel : Machine → Machine → Prop} {m n : Machine}

/-- Coupled changes couple the machines on which they are attempted. -/
theorem Coupled.attempt (hrel : rel m n) {x y : Except Fault Machine}
    (h : ThreadedForth.Coupled e rel x y) :
    Coupled e rel (some (m.attempt x)) (some (n.attempt y)) := by
  cases h with
  | ok hxy => exact .both (.done () hxy)
  | error fault => exact .both (.halted _ hrel)
  | first _ hfault => exact .first ⟨m, hfault⟩
  | second _ hfault => exact .second ⟨n, hfault⟩

/-- Coupled changes with equal values couple the machines on which they are attempted. -/
theorem Coupled.attemptWith (hrel : rel m n) {x y : Except Fault (α × Machine)}
    (h : ThreadedForth.Coupled e (fun a b => b.1 = a.1 ∧ rel a.2 b.2) x y) :
    Coupled e rel (some (m.attemptWith x)) (some (n.attemptWith y)) := by
  cases h with
  | @ok a b hab =>
      obtain ⟨value, changed⟩ := a
      obtain ⟨value', changed'⟩ := b
      obtain ⟨rfl, hab⟩ := hab
      exact .both (.done _ hab)
  | error fault => exact .both (.halted _ hrel)
  | first _ hfault => exact .first ⟨m, hfault⟩
  | second _ hfault => exact .second ⟨n, hfault⟩

/-- The same reading is coupled on corresponding machines. -/
theorem Coupled.inspect (hrel : rel m n) (x : Except Fault α) :
    Coupled e rel (some (m.inspect x)) (some (n.inspect x)) := by
  cases x with
  | ok value => exact .both (.done value hrel)
  | error fault => exact .both (.halted _ hrel)

/-- What comes after two coupled operations, if it comes after both, is coupled too. -/
theorem Coupled.checked {rel' : α → α → Prop} {x y : Except Fault α} {f g : α → Run β}
    (hrel : rel m n) (h : ThreadedForth.Coupled e rel' x y)
    (hfg : ∀ a b, x = .ok a → rel' a b → Coupled e rel (f a) (g b)) :
    Coupled e rel (m.checked x f) (n.checked y g) := by
  cases h with
  | ok hab => exact hfg _ _ rfl hab
  | error fault => exact .both (.halted _ hrel)
  | first _ hfault => exact .first ⟨m, hfault⟩
  | second _ hfault => exact .second ⟨n, hfault⟩

/-- A run that goes on, if it succeeds, with another one. -/
def andThen (run : Run Unit) (next : Machine → Run Unit) : Run Unit :=
  match run with
  | some (.done () n) => next n
  | stopped => stopped

/-- What comes after two coupled runs, if it comes after both, is coupled too. -/
theorem Coupled.andThen {run run' : Run Unit} {f g : Machine → Run Unit}
    (h : Coupled e rel run run')
    (hfg : ∀ m n, run = some (.done () m) → rel m n → Coupled e rel (f m) (g n)) :
    Coupled e rel (andThen run f) (andThen run' g) := by
  cases h with
  | both h =>
      cases h with
      | exhausted => exact .both .exhausted
      | done value h => exact hfg _ _ rfl h
      | halted reason h => exact .both (.halted reason h)
  | first h =>
      cases h with
      | intro m hfault => exact .first ⟨m, hfault⟩
  | second h =>
      cases h with
      | intro n hfault => exact .second ⟨n, hfault⟩

/-- Coupled runs may leave machines that correspond in another way too. -/
theorem Coupled.imp {rel' : Machine → Machine → Prop} {run run' : Run α}
    (h : Coupled e rel run run')
    (himp : ∀ outcome, run = some outcome → ∀ n, rel outcome.machine n → rel' outcome.machine n) :
    Coupled e rel' run run' := by
  cases h with
  | both h =>
      cases h with
      | exhausted => exact .both .exhausted
      | done value h => exact .both (.done value (himp _ rfl _ h))
      | halted reason h => exact .both (.halted reason (himp _ rfl _ h))
  | first h => exact .first h
  | second h => exact .second h

/-- Runs of which neither is excused match. -/
theorem Coupled.matches_of_not {run run' : Run α} (h : Coupled e rel run run')
    (hfirst : ¬ Faults e.first run) (hsecond : ∀ fault, ¬ e.second fault) :
    Matches rel run run' := by
  cases h with
  | both h => exact h
  | first h => exact absurd h hfirst
  | second h =>
      cases h with
      | intro n hfault => exact absurd hfault (hsecond _)

end Run

/-- A correspondence between machines that is kept by everything that code does, host programs
apart, as long as it invokes only permitted primitives. -/
structure Simulation (e : Excuse) (permit : Primitive → Prop) (rel : Machine → Machine → Prop) :
    Prop where
  cursor {m n : Machine} : rel m n → n.cursor = m.cursor
  depth {m n : Machine} : rel m n → n.returns.depth = m.returns.depth
  operand {m n : Machine} : rel m n → n.operand = m.operand
  resolve {m n : Machine} (token : Cell) : rel m n → n.resolve token = m.resolve token
  enter {m n : Machine} (token : Cell) : rel m n → rel (m.enter token) (n.enter token)
  move {m n : Machine} (cursor : Option Cell) : rel m n →
    rel { m with cursor := cursor } { n with cursor := cursor }
  pop {m n : Machine} : rel m n → Coupled e (fun x y => y.1 = x.1 ∧ rel x.2 y.2) m.pop n.pop
  call {m n : Machine} (body : Nat) : rel m n → Coupled e rel (m.call body) (n.call body)
  effect {m n : Machine} {p : Primitive} {effect : Effect} : rel m n → permit p →
    p.effect? = some effect →
    Run.Coupled e rel (some (effect m)) (some (effect n))

/-- A way of carrying out host programs that couples corresponding machines, for those programs that
they have. -/
def HostRunner.Couples (e : Excuse) (rel : Machine → Machine → Prop) (host : HostRunner) : Prop :=
  ∀ ⦃m n : Machine⦄ ⦃token : Nat⦄ ⦃d : Definition⦄ ⦃code : HostCode⦄, rel m n →
    m.dictionary.get? token = some d →
    d.action = .host code → Run.Coupled e rel (host code m) (host code n)

/-- Taking the top cell off changes nothing but the data stack. -/
theorem Machine.pop_eq_ok {m n : Machine} {x : Cell} (h : m.pop = .ok (x, n)) :
    m.data.cells = x :: n.data.cells ∧ n.dictionary = m.dictionary := by
  obtain ⟨⟨y, data⟩, hpop, heq⟩ := bind_eq_ok.mp h
  cases heq
  exact ⟨(Stack.pop_eq_ok.mp hpop).1, rfl⟩

/-- The primitives that invoking a token brings into action, once its definition is known. -/
theorem Machine.invoked_of_resolve {m : Machine} {token : Cell} {d : Definition}
    (h : m.resolve token = .ok d) (rest : List Cell) :
    m.dictionary.invoked (token :: rest) = d.invokes (m.dictionary.invoked rest) := by
  rw [Dictionary.invoked, Machine.resolve_eq_ok.mp h]

/-- Stepping up to a cursor takes one step and goes on. -/
theorem Machine.stepUntil_succ (host : HostRunner) (cursor : Option Cell) (budget : Nat)
    (m : Machine) :
    m.stepUntil host cursor (budget + 1) =
      if m.cursor = cursor then some (.done () m)
      else Run.andThen (m.step host) fun n => n.stepUntil host cursor budget := by
  rw [stepUntil]
  rfl

/-- Executing a token invokes it and then steps through what that entered. -/
theorem Machine.execute_eq (host : HostRunner) (budget : Nat) (token : Cell) (m : Machine) :
    m.execute host budget token = m.checked (m.resolve token) fun d =>
      Run.andThen (m.invoke host token d) fun n =>
      if m.returns.depth < n.returns.depth then n.stepUntil host m.cursor budget
      else some (.done () n) := by
  unfold execute
  cases m.resolve token with
  | error fault => rfl
  | ok d => rfl

/-- Steps that all succeed are a step that succeeds and steps that all succeed. -/
theorem Machine.steps_succ_eq_done {host : HostRunner} {count : Nat} {m last : Machine} :
    m.steps host (count + 1) = some (count + 1, .done () last) ↔
      ∃ n, m.step host = some (.done () n) ∧ n.steps host count = some (count, .done () last) := by
  rw [steps]
  split
  · next n hn => simp [hn]
  · next reason n hn => simp [hn]
  · next hn => simp [hn]

namespace Simulation

variable {e : Excuse} {permit : Primitive → Prop} {rel : Machine → Machine → Prop}
  {host : HostRunner} {m n : Machine}

/-- Carrying out a definition is coupled if invoking the token on the stack is. -/
theorem carryOut (sim : Simulation e permit rel) (hhost : HostRunner.Couples e rel host)
    {executeTop : Machine → Run Unit} {token : Nat} {d : Definition} {top : List Primitive}
    (hrel : rel m n) (hd : m.dictionary.get? token = some d)
    (hpermit : ∀ p ∈ d.invokes top, permit p)
    (htop : (∀ p ∈ top, permit p) → Run.Coupled e rel (executeTop m) (executeTop n)) :
    Run.Coupled e rel (m.carryOut host executeTop d) (n.carryOut host executeTop d) := by
  unfold Definition.invokes at hpermit
  unfold Machine.carryOut
  cases haction : d.action with
  | primitive p =>
      simp only [haction] at hpermit ⊢
      cases heffect : p.effect? with
      | some effect =>
          rw [heffect] at hpermit
          exact sim.effect hrel (hpermit p List.mem_cons_self) heffect
      | none =>
          rw [heffect] at hpermit
          exact htop fun q hq => hpermit q (List.mem_cons_of_mem p hq)
  | host code => exact hhost hrel hd haction
  | nested => exact .attempt hrel (sim.call d.body hrel)

/-- Invoking the token on the stack, along a chain of words that do so, is coupled. The induction is
on the cells that the first machine has on its data stack. -/
theorem invokeTop (sim : Simulation e permit rel) (hhost : HostRunner.Couples e rel host)
    (cells : List Cell) (hcells : m.data.cells = cells) (hrel : rel m n)
    (hpermit : ∀ p ∈ m.dictionary.invoked cells, permit p) :
    Run.Coupled e rel (Machine.invokeTop host m.data.cells m)
      (Machine.invokeTop host n.data.cells n) := by
  induction cells generalizing m n with
  | nil =>
      rw [Machine.invokeTop_eq, Machine.invokeTop_eq]
      refine .checked hrel (sim.pop hrel) fun popped _ hpop _ => ?_
      exact absurd (hcells.symm.trans (Machine.pop_eq_ok hpop).1) (List.cons_ne_nil _ _).symm
  | cons token rest ih =>
      rw [Machine.invokeTop_eq, Machine.invokeTop_eq]
      refine .checked hrel (sim.pop hrel) fun popped popped' hpop hpopped => ?_
      obtain ⟨top, s⟩ := popped
      obtain ⟨_, t⟩ := popped'
      obtain ⟨rfl, hst⟩ := hpopped
      obtain ⟨hcons, hdictionary⟩ := Machine.pop_eq_ok hpop
      obtain ⟨rfl, rfl⟩ := List.cons.inj (hcells.symm.trans hcons)
      dsimp only
      rw [sim.resolve _ hrel]
      refine .checked hrel (.refl _) fun d _ hd heq => ?_
      subst heq
      rw [Machine.invoked_of_resolve hd] at hpermit
      have hentered := sim.enter token hst
      have hget : (s.enter token).dictionary.get? token.toNat = some d :=
        hdictionary ▸ Machine.resolve_eq_ok.mp hd
      refine sim.carryOut hhost hentered hget hpermit fun htop => ?_
      exact ih rfl hentered (hdictionary ▸ htop)

/-- Invoking a definition is coupled on corresponding machines. -/
theorem invoke (sim : Simulation e permit rel) (hhost : HostRunner.Couples e rel host)
    {token : Cell} {d : Definition} (hrel : rel m n) (hd : m.resolve token = .ok d)
    (hpermit : ∀ p ∈ m.dictionary.invoked (token :: m.data.cells), permit p) :
    Run.Coupled e rel (m.invoke host token d) (n.invoke host token d) := by
  rw [Machine.invoked_of_resolve hd] at hpermit
  have hentered := sim.enter token hrel
  refine sim.carryOut hhost hentered (Machine.resolve_eq_ok.mp hd) hpermit fun htop => ?_
  exact sim.invokeTop hhost _ rfl hentered htop

/-- One step is coupled on corresponding machines. -/
theorem step (sim : Simulation e permit rel) (hhost : HostRunner.Couples e rel host)
    (hrel : rel m n) (hpermit : ∀ p ∈ m.stepTrace, permit p) :
    Run.Coupled e rel (m.step host) (n.step host) := by
  rw [Machine.step_eq, Machine.step_eq, sim.operand hrel]
  refine .checked hrel (.refl _) fun operand _ hoperand heq => ?_
  subst heq
  rw [Machine.stepTrace, hoperand] at hpermit
  rw [sim.resolve operand.2 hrel]
  refine .checked hrel (.refl _) fun d _ hd heq => ?_
  subst heq
  exact sim.invoke hhost (sim.move _ hrel) hd hpermit

/-- Stepping up to a cursor is coupled on corresponding machines. -/
theorem stepUntil (sim : Simulation e permit rel) (hhost : HostRunner.Couples e rel host)
    (cursor : Option Cell) (budget : Nat) (hrel : rel m n)
    (hpermit : ∀ p ∈ m.trace host (fun o => o.cursor = cursor) budget, permit p) :
    Run.Coupled e rel (m.stepUntil host cursor budget) (n.stepUntil host cursor budget) := by
  induction budget generalizing m n with
  | zero =>
      rw [Machine.stepUntil, Machine.stepUntil, sim.cursor hrel]
      split
      · exact .both (.done () hrel)
      · exact .both .exhausted
  | succ budget ih =>
      rw [Machine.stepUntil_succ, Machine.stepUntil_succ, sim.cursor hrel]
      split
      · exact .both (.done () hrel)
      · next hcursor =>
          rw [Machine.trace, if_neg (by simpa using hcursor)] at hpermit
          have hstep := sim.step hhost hrel fun p hp => hpermit p (List.mem_append_left _ hp)
          refine hstep.andThen fun s t hs hst => ih hst fun p hp =>
            hpermit p (List.mem_append_right _ ?_)
          rw [hs]
          exact hp

/-- Executing a token is coupled on corresponding machines. -/
theorem execute (sim : Simulation e permit rel) (hhost : HostRunner.Couples e rel host)
    (budget : Nat) (token : Cell) (hrel : rel m n)
    (hpermit : ∀ p ∈ m.executeTrace host budget token, permit p) :
    Run.Coupled e rel (m.execute host budget token) (n.execute host budget token) := by
  rw [Machine.execute_eq, Machine.execute_eq, sim.resolve token hrel, sim.cursor hrel,
    sim.depth hrel]
  refine .checked hrel (.refl _) fun d _ hd heq => ?_
  subst heq
  rw [Machine.executeTrace, hd] at hpermit
  have hinvoke := sim.invoke hhost hrel hd fun p hp => hpermit p (List.mem_append_left _ hp)
  refine hinvoke.andThen fun s t hs hst => ?_
  rw [sim.depth hst]
  split
  · next hdeeper =>
      refine sim.stepUntil hhost _ budget hst fun p hp => hpermit p (List.mem_append_right _ ?_)
      rw [hs]
      dsimp only
      rw [if_pos hdeeper]
      exact hp
  · exact .both (.done () hst)

/-- A free run is coupled on corresponding machines. -/
theorem run (sim : Simulation e permit rel) (hhost : HostRunner.Couples e rel host) (budget : Nat)
    (hrel : rel m n) (hpermit : ∀ p ∈ m.trace host (fun _ => false) budget, permit p) :
    Run.Coupled e rel (m.run host budget) (n.run host budget) := by
  induction budget generalizing m n with
  | zero => exact .both .exhausted
  | succ budget ih =>
      rw [Machine.trace, if_neg Bool.false_ne_true] at hpermit
      have hstep := sim.step hhost hrel fun p hp => hpermit p (List.mem_append_left _ hp)
      replace hpermit := fun p hp => hpermit p (List.mem_append_right _ hp)
      rw [Machine.run, Machine.run]
      generalize m.step host = first at hstep hpermit ⊢
      generalize n.step host = second at hstep ⊢
      cases hstep with
      | both h =>
          cases h with
          | exhausted => exact .both .exhausted
          | done value h => exact ih h hpermit
          | halted reason h => exact .both (.halted reason h)
      | first h =>
          cases h with
          | intro s hfault => exact .first ⟨s, hfault⟩
      | second h =>
          cases h with
          | intro t hfault => exact .second ⟨t, hfault⟩

/-- A number of steps that all succeed on the first machine: on the second they do so too, or one of
them is excused. -/
theorem steps (sim : Simulation e permit rel) (hhost : HostRunner.Couples e rel host) (count : Nat)
    (hrel : rel m n) (hpermit : ∀ p ∈ m.trace host (fun _ => false) count, permit p)
    {last : Machine} (hsteps : m.steps host count = some (count, .done () last)) :
    (∃ taken fault stopped, taken < count ∧ e.second fault ∧
        n.steps host count = some (taken, .halted (.fault fault) stopped)) ∨
      ∃ last', n.steps host count = some (count, .done () last') ∧ rel last last' := by
  induction count generalizing m n with
  | zero =>
      cases hsteps
      exact .inr ⟨n, rfl, hrel⟩
  | succ count ih =>
      rw [Machine.trace, if_neg Bool.false_ne_true] at hpermit
      have hstep := sim.step hhost hrel fun p hp => hpermit p (List.mem_append_left _ hp)
      replace hpermit := fun p hp => hpermit p (List.mem_append_right _ hp)
      obtain ⟨s, hs, hrest⟩ := Machine.steps_succ_eq_done.mp hsteps
      rw [Machine.steps]
      rw [hs] at hstep hpermit
      generalize n.step host = second at hstep ⊢
      cases hstep with
      | both h =>
          cases h with
          | done value h =>
              obtain ⟨taken, fault, stopped, hlt, hfault, htaken⟩ | ⟨last', hlast, hlasts⟩ :=
                ih h hpermit hrest
              · exact .inl ⟨taken + 1, fault, stopped, by omega, hfault, by simp [htaken]⟩
              · exact .inr ⟨last', by simp [hlast], hlasts⟩
      | first h => cases h
      | second h =>
          cases h with
          | intro t hfault => exact .inl ⟨0, _, t, by omega, hfault, rfl⟩

/-- A request is coupled if the requests that run no code are. -/
theorem perform (sim : Simulation e permit rel) (hhost : HostRunner.Couples e rel host)
    (budget : Nat) (r : Request)
    (hrequest : r.runsCode = false →
    Run.Coupled e rel (r.perform host budget m) (r.perform host budget n)) (hrel : rel m n)
    (hpermit : ∀ p ∈ r.trace host budget m, permit p) :
    Run.Coupled e rel (r.perform host budget m) (r.perform host budget n) := by
  cases hruns : r.runsCode with
  | false => exact hrequest hruns
  | true =>
      cases r with
      | execute token => exact sim.execute hhost budget token hrel hpermit
      | step => exact sim.step hhost hrel hpermit
      | run => exact sim.run hhost budget hrel hpermit
      | _ => cases hruns

/-- A property of the first machine that continuing it keeps may be added to a correspondence. -/
theorem restrict (sim : Simulation e permit rel) {holds : Machine → Prop}
    (hkeep : ∀ ⦃m n : Machine⦄, holds m → m.Continues n → holds n) :
    Simulation e permit fun m n => rel m n ∧ holds m where
  cursor h := sim.cursor h.1
  depth h := sim.depth h.1
  operand h := sim.operand h.1
  resolve token h := sim.resolve token h.1
  enter token h := ⟨sim.enter token h.1, hkeep h.2 (.free _ _ _ _ _)⟩
  move cursor h := ⟨sim.move cursor h.1, hkeep h.2 (.free _ _ _ _ _)⟩
  pop {m n} h :=
    (sim.pop h.1).imp fun x y hx hxy => ⟨hxy.1, hxy.2, hkeep h.2 (Machine.continues_of_pop hx)⟩
  call {m n} body h := (sim.call body h.1).imp fun s t hs hst => by
    have hsteady := m.call_steady body
    rw [hs] at hsteady
    exact ⟨hst, hkeep h.2 hsteady⟩
  effect {m n p effect} h hp heffect :=
    (sim.effect h.1 hp heffect).imp fun outcome houtcome t hst => by
    have hsteady := Primitive.effect_steady heffect m
    rw [Option.some.inj houtcome] at hsteady
    cases outcome with
    | done value s => exact ⟨hst, hkeep h.2 hsteady⟩
    | halted reason s => exact ⟨hst, hkeep h.2 hsteady.1⟩

end Simulation

/-- A simulation under which machines never part, whatever primitive is invoked and whatever is
asked of them. -/
structure Bisimulation (e : Excuse) (permit : Primitive → Prop) (rel : Machine → Machine → Prop) :
    Prop extends
    Simulation e permit rel where
  unexcused (fault : Fault) : ¬ e.first fault ∧ ¬ e.second fault
  permitted (p : Primitive) : permit p
  request {m n : Machine} {r : Request} (host : HostRunner) (budget : Nat) : rel m n →
    r.runsCode = false →
    Run.Coupled e rel (r.perform host budget m) (r.perform host budget n)
  define {m n : Machine} (name : String) (body : HostCode) : rel m n →
    Coupled e (fun x y => y.1 = x.1 ∧ rel x.2 y.2) (m.define name (.host body) false)
      (n.define name (.host body) false)

namespace Bisimulation

variable {e : Excuse} {permit : Primitive → Prop} {rel : Machine → Machine → Prop} {m n : Machine}

/-- Coupled runs match. -/
theorem matches_of_coupled (sim : Bisimulation e permit rel) {run run' : Run α}
    (h : Run.Coupled e rel run run') : Run.Matches rel run run' :=
  h.matches_of_not (Run.not_faults (fun fault => (sim.unexcused fault).1) run) fun fault =>
    (sim.unexcused fault).2

/-- A host program matches on corresponding machines if the answers to its requests do. -/
theorem runWith (sim : Bisimulation e permit rel) {answer : (r : Request) → Machine → Run r.Reply}
    (hanswer : ∀ r m n, rel m n → Run.Matches rel (answer r m) (answer r n)) (code : HostCode)
    (hrel : rel m n) : Run.Matches rel (code.runWith answer m) (code.runWith answer n) := by
  induction code generalizing m n with
  | done result =>
      cases result with
      | ok => exact .done () hrel
      | error reason => exact .halted reason hrel
  | ask r next ih =>
      have hreply := hanswer r m n hrel
      rw [HostCode.runWith, HostCode.runWith]
      generalize answer r m = first at hreply ⊢
      generalize answer r n = second at hreply ⊢
      cases hreply with
      | exhausted => exact .exhausted
      | done reply h => exact ih (.ok reply) h
      | halted reason h => exact ih (.error reason) h
  | define name body next hbody ih =>
      have hadded := sim.define name body hrel
      rw [HostCode.runWith, HostCode.runWith]
      generalize m.define name (.host body) false = first at hadded ⊢
      generalize n.define name (.host body) false = second at hadded ⊢
      cases hadded with
      | @ok x y hxy =>
          obtain ⟨token, s⟩ := x
          obtain ⟨_, t⟩ := y
          obtain ⟨rfl, hst⟩ := hxy
          exact ih (.ok _) hst
      | error fault => exact ih (.error (.fault fault)) hrel
      | first _ hfault => exact absurd hfault (sim.unexcused _).1
      | second _ hfault => exact absurd hfault (sim.unexcused _).2

/-- Host programs match on corresponding machines, within every budget. -/
theorem hostRun (sim : Bisimulation e permit rel) (budget : Nat) (code : HostCode)
    (hrel : rel m n) :
    Run.Matches rel (HostCode.run budget code m) (HostCode.run budget code n) := by
  induction budget generalizing code m n with
  | zero => exact .exhausted
  | succ budget ih =>
      refine sim.runWith (fun r s t hst => sim.matches_of_coupled ?_) code hrel
      exact sim.perform (fun _ _ _ _ code hst _ _ => .both (ih code hst)) budget r
        (sim.request _ _ hst) hst
        fun p _ => sim.permitted p

/-- Operations are coupled on corresponding machines, within every budget. -/
theorem operation (sim : Bisimulation e permit rel) (budget : Nat) (op : Operation)
    (hrel : rel m n) : Run.Coupled e rel (op.perform budget m) (op.perform budget n) := by
  cases op with
  | ask r =>
      exact sim.perform (fun _ _ _ _ code hst _ _ => .both (sim.hostRun budget code hst)) budget r
        (sim.request _ _ hrel) hrel fun p _ => sim.permitted p
  | define name body => exact .attemptWith hrel (sim.define name body hrel)

end Bisimulation

/-- What an operation of a session came to: its answer with the machine that it left, and the
primitives that it invoked. -/
structure Exchange where
  operation : Operation
  run : Run operation.Reply
  words : List Primitive

/-- The exchanges of a session, in which the clock shows a given time at each turn and every
operation has a budget of its own. A session goes on after an operation that halts, and ends with
one that uses up its budget. -/
def session (clock : Nat → Clock) : List (Operation × Nat) → Machine → List Exchange
  | [], _ => []
  | (op, budget) :: rest, m =>
      let ticked : Machine := { m with clock := clock 0 }
      ⟨op, op.perform budget ticked, op.trace budget ticked⟩ :: (match op.perform budget ticked with
        | none => []
        | some outcome => session (fun turn => clock (turn + 1)) rest outcome.machine)

/-- Two exchanges of the same operation with the same answer, after which the machines
correspond. -/
inductive Exchange.Matches (rel : Machine → Machine → Prop) : Exchange → Exchange → Prop where
  | intro (op : Operation) {run run' : Run op.Reply} (words words' : List Primitive) :
      Run.Matches rel run run' → Exchange.Matches rel ⟨op, run, words⟩ ⟨op, run', words'⟩

/-- Matching exchanges match with a wider correspondence too. -/
theorem Exchange.Matches.imp {rel rel' : Machine → Machine → Prop}
    (himp : ∀ m n, rel m n → rel' m n) ⦃x y : Exchange⦄ (h : Exchange.Matches rel x y) :
    Exchange.Matches rel' x y := by
  obtain ⟨op, words, words', h⟩ := h
  refine .intro op words words' ?_
  cases h with
  | exhausted => exact .exhausted
  | done reply h => exact .done reply (himp _ _ h)
  | halted reason h => exact .halted reason (himp _ _ h)

/-- Two sessions with the same operations match, exchange by exchange, if every operation is
coupled, the clocks keep the correspondence, and the first session gives no excuse. -/
theorem session_matches {e : Excuse} {permit : Primitive → Prop} {rel : Machine → Machine → Prop}
    (hsecond : ∀ fault, ¬ e.second fault) (operations : List (Operation × Nat))
    (hoperation : ∀ x ∈ operations, ∀ m n, rel m n → (∀ p ∈ x.1.trace x.2 m, permit p) →
      Run.Coupled e rel (x.1.perform x.2 m) (x.1.perform x.2 n))
    {clock clock' : Nat → Clock}
    (htick : ∀ turn m n, rel m n →
      rel { m with clock := clock turn } { n with clock := clock' turn })
    {m n : Machine} (hrel : rel m n)
    (hfirst : ∀ x ∈ session clock operations m, ¬ Run.Faults e.first x.run ∧
      ∀ p ∈ x.words, permit p) :
    List.Forall₂ (Exchange.Matches rel) (session clock operations m)
      (session clock' operations n) := by
  induction operations generalizing m n clock clock' with
  | nil => exact .nil
  | cons x rest ih =>
      obtain ⟨op, budget⟩ := x
      rw [session] at hfirst
      rw [session, session]
      obtain ⟨⟨hfaults, hpermit⟩, hrest⟩ := List.forall_mem_cons.mp hfirst
      have hticked := htick 0 m n hrel
      have hrun :=
        (hoperation _ List.mem_cons_self _ _ hticked hpermit).matches_of_not hfaults hsecond
      refine .cons (.intro op _ _ hrun) ?_
      have hnext := fun s t hst => ih (fun x hx => hoperation x (List.mem_cons_of_mem _ hx))
        (fun turn => htick (turn + 1)) (m := s) (n := t) hst
      generalize op.perform budget { m with clock := clock 0 } = first at hrun hrest ⊢
      generalize op.perform budget { n with clock := clock' 0 } = second at hrun ⊢
      cases hrun with
      | exhausted => exact .nil
      | done reply h => exact hnext _ _ h hrest
      | halted reason h => exact hnext _ _ h hrest

end ThreadedForth
