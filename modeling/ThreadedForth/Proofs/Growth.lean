import ThreadedForth.Proofs.Budget
import ThreadedForth.Proofs.Definition

/-!
# Definitions stay

Compiled code holds tokens and addresses, so nothing that a session does may move a definition or
hand out again what has been handed out. Until the session is started again, `here` only moves
forward, and the definitions of a machine remain the first ones of every later machine, with their
names, actions and bodies. Code of primitives and nested definitions adds none, and each operation
that adds one adds it last.

Whether an operation starts the session again may depend on what a host program is answered. So
operations are also carried out in such a way that a reset has no answer and nothing comes after it.
One that ends nevertheless has made no reset, and it ends as it does otherwise.
-/

namespace ThreadedForth

/-- Carry out a request, unless it is a reset. -/
def Request.performOnward (host : HostRunner) (budget : Nat) :
    (request : Request) → Machine → Run request.Reply
  | .reset, _ => none
  | request, m => request.perform host budget m

/-- Carry out a host program within a budget up to its first reset. -/
def HostCode.runOnward : Nat → HostRunner
  | 0 => fun _ _ => none
  | budget + 1 =>
      fun code m => code.runWith (fun request => request.performOnward (runOnward budget) budget) m

/-- Carry out an operation within a budget up to its first reset. -/
def Operation.performOnward (budget : Nat) : (operation : Operation) → Machine → Run operation.Reply
  | .ask request, m => request.performOnward (HostCode.runOnward budget) budget m
  | .define name body, m => some (m.attemptWith (m.define name (.host body) false))

/-- An operation ends without having made a reset. -/
def Operation.GoesOn (budget : Nat) (operation : Operation) (m : Machine) : Prop :=
  (operation.performOnward budget m).isSome = true

/-- A request that makes no reset is carried out as it is otherwise. -/
theorem Request.performOnward_within {host host' : HostRunner} (h : host.Within host')
    (budget : Nat) (r : Request) (m : Machine) :
    (r.performOnward host budget m).Within (r.perform host' budget m) := by
  cases r with
  | reset => exact .none _
  | _ => exact perform_within h (Nat.le_refl budget) _ m

/-- A host program that makes no reset is carried out as it is otherwise. -/
theorem HostCode.runOnward_within (budget : Nat) : (runOnward budget).Within (run budget) := by
  induction budget with
  | zero => exact fun code m => .none _
  | succ budget ih =>
      exact fun code m => runWith_within (fun r n => r.performOnward_within ih budget n) code m

/-- An operation that makes no reset is carried out as it is otherwise. -/
theorem Operation.performOnward_within (budget : Nat) (operation : Operation) (m : Machine) :
    (operation.performOnward budget m).Within (operation.perform budget m) := by
  cases operation with
  | ask r => exact r.performOnward_within (HostCode.runOnward_within budget) budget m
  | define name body => exact .refl _

/-- A machine that has handed out at least as much as another one, and has its definitions first,
apart from flags. -/
structure Machine.Grows (m n : Machine) : Prop where
  here_le : m.space.here ≤ n.space.here
  definitions : m.dictionary.entries.toList.map Definition.core <+:
    n.dictionary.entries.toList.map Definition.core

/-- A machine with one more definition than another one has: the last, whose body is where `here`
has moved to, the next cell boundary. -/
structure Machine.Defines (m : Machine) (name : String) (action : Action) (token : Nat)
    (n : Machine) : Prop where
  token_eq : token = m.dictionary.size
  size_eq : n.dictionary.size = m.dictionary.size + 1
  entry : ∃ d, n.dictionary.get? token = some d ∧ d.name = name ∧ d.action = action ∧
    d.body = n.space.here
  aligned : cellSize ∣ n.space.here
  here_le : m.space.here ≤ n.space.here
  here_lt : n.space.here < m.space.here + cellSize

namespace Machine

variable {m n o : Machine}

/-- Growing composes. -/
theorem Grows.trans (hmn : m.Grows n) (hno : n.Grows o) : m.Grows o :=
  ⟨Nat.le_trans hmn.here_le hno.here_le, hmn.definitions.trans hno.definitions⟩

/-- A machine that continues another one has the same definitions, apart from flags. -/
theorem Continues.grows (h : m.Continues n) : m.Grows n := by
  refine ⟨h.space.here_le, ?_⟩
  have hentries := congrArg Array.toList h.dictionary.entries
  simp only [Array.toList_map] at hentries
  exact hentries ▸ List.prefix_rfl

/-- Adding a definition adds it last. -/
theorem defines_of_define {name : String} {action : Action} {immediate : Bool} {token : Nat}
    (h : m.define name action immediate = .ok (token, n)) : m.Defines name action token n := by
  obtain ⟨-, rfl, rfl⟩ := define_eq_ok.mp h
  let added : Definition :=
    { name := name, action := action, body := alignUp m.space.here, immediate := immediate }
  refine ⟨rfl, Array.size_push _, ⟨added, ?_, rfl, rfl, rfl⟩, dvd_alignUp _, le_alignUp _,
    alignUp_lt _⟩
  rw [Dictionary.get?_push, if_pos rfl]

/-- Adding a definition leaves the others first. -/
theorem grows_of_define {name : String} {action : Action} {immediate : Bool} {token : Nat}
    (h : m.define name action immediate = .ok (token, n)) : m.Grows n := by
  obtain ⟨-, -, rfl⟩ := define_eq_ok.mp h
  refine ⟨le_alignUp _, ?_⟩
  simp

/-- A definition that is added or refused leaves the others first. -/
theorem grows_attempt_define (m : Machine) (name : String) (action : Action) (immediate : Bool) :
    m.Grows (m.attemptWith (m.define name action immediate)).machine := by
  cases hdefine : m.define name action immediate with
  | ok added => exact grows_of_define hdefine
  | error fault => exact (Continues.refl m).grows

/-- Code leaves a machine that has grown, if host programs do. -/
theorem Grows.codeInvariant (m : Machine) {host : HostRunner}
    (hhost : ∀ code n, m.Grows n → Run.Meets m.Grows (fun _ => True) (host code n)) :
    CodeInvariant host (fun _ => True) m.Grows :=
  .of_continues (fun _ _ h hcontinues => h.trans hcontinues.grows) fun _ _ _ code hn _ _ =>
    hhost code _ hn

/-- A request that makes no reset leaves a machine that has grown. -/
theorem Grows.performOnward {host : HostRunner} (inv : CodeInvariant host (fun _ => True) m.Grows)
    (budget : Nat) (r : Request) (h : m.Grows n) :
    Run.Meets m.Grows (fun _ => True) (r.performOnward host budget n) := by
  have hperform : r ≠ .reset → Run.Meets m.Grows (fun _ => True) (r.perform host budget n) := by
    intro hreset
    refine inv.perform budget r
      (fun hruns outcome houtcome => Outcome.meets_of_machine (h.trans ?_)) h
    by_cases hcolon : ∃ name, r = .defineColon name
    · obtain ⟨name, rfl⟩ := hcolon
      cases houtcome
      exact grows_attempt_define n name .nested false
    · exact (r.perform_continues hruns hreset (fun name heq => hcolon ⟨name, heq⟩) houtcome).grows
  cases r with
  | reset => exact fun outcome houtcome => by cases houtcome
  | _ => exact hperform (by simp)

/-- A host program that makes no reset leaves a machine that has grown. -/
theorem Grows.runOnward (budget : Nat) (code : HostCode) (h : m.Grows n) :
    Run.Meets m.Grows (fun _ => True) (HostCode.runOnward budget code n) := by
  induction budget generalizing code n with
  | zero => exact fun outcome houtcome => by cases houtcome
  | succ budget ih =>
      have inv := Grows.codeInvariant m fun code n hn => ih code hn
      refine HostCode.runWith_meets (fun r o (_ : True) ho => ho.performOnward inv budget r) ?_ code
        (code.obeys_of_forall (fun _ => trivial) fun _ => trivial) h
      exact fun name body o ho _ =>
        Outcome.meets_of_machine (ho.trans (grows_attempt_define o name _ false))

/-- An operation that makes no reset leaves a machine that has grown. -/
theorem grows_performOnward (budget : Nat) (operation : Operation) (m : Machine) :
    Run.Meets m.Grows (fun _ => True) (operation.performOnward budget m) := by
  have hrefl := (Continues.refl m).grows
  cases operation with
  | ask r =>
      exact hrefl.performOnward
        (Grows.codeInvariant m fun code n hn => hn.runOnward budget code) budget r
  | define name body =>
      exact Run.meets_some (Outcome.meets_of_machine (grows_attempt_define m name _ false))

/-- The machines that a session comes to without a reset: by operations, at the entry of host
programs, whose requests are operations again, and as the clock goes on. -/
inductive Onward (m : Machine) : Machine → Prop where
  | refl : Onward m m
  | perform {n : Machine} (operation : Operation) (budget : Nat)
      {outcome : Outcome operation.Reply} : Onward m n →
      operation.perform budget n = some outcome → operation.GoesOn budget n →
      Onward m outcome.machine
  | enter {n : Machine} (token : Cell) : Onward m n → Onward m (n.enter token)
  | tick {n : Machine} (clock : Clock) : Onward m n → Onward m { n with clock := clock }

/-- A session without a reset only grows. -/
theorem Onward.grows (h : m.Onward n) : m.Grows n := by
  induction h with
  | refl => exact (Continues.refl m).grows
  | @perform o operation budget outcome _ hends hgoes ih =>
      obtain ⟨outcome', houtcome⟩ := Option.isSome_iff_exists.mp hgoes
      have heq := operation.performOnward_within budget o _ houtcome
      rw [hends] at heq
      rw [← Option.some.inj heq] at houtcome
      exact ih.trans (grows_performOnward budget operation o _ houtcome).machine
  | enter token _ ih => exact ih.trans (Continues.free _ _ _ _ _).grows
  | tick clock _ ih => exact ih.trans (Continues.free _ _ _ _ _).grows

/-- A run in which no host program is carried out leaves a machine that continues the old one. -/
theorem hostless_codeInvariant (m : Machine) :
    CodeInvariant (HostCode.run 0) (fun _ => True) m.Continues :=
  .of_continues (fun _ _ h hcontinues => h.trans hcontinues)
    fun _ _ _ _ _ _ _ _ houtcome => by cases houtcome

/-- Tokens are stable. Whatever is done to a machine short of a reset, `here` has not moved back,
and the definitions are still the first ones, with their names, actions and bodies. No primitive
adds a definition by itself, nor does code that comes to its end without a host program. An
operation that adds a definition adds just one, whose token is the number of earlier ones, at the
next cell boundary. -/
theorem tokens_stable (m : Machine) :
    (∀ n, m.Onward n → m.space.here ≤ n.space.here ∧
      m.dictionary.entries.toList.map Definition.core <+:
      n.dictionary.entries.toList.map Definition.core) ∧
    (∀ host p outcome, p ≠ .execute → m.dispatch host p = some outcome →
      outcome.machine.dictionary.size = m.dictionary.size) ∧
    (∀ (r : Request) budget outcome, r.runsCode = true →
      r.perform (HostCode.run 0) budget m = some outcome →
      (∀ host, r.perform host budget m = some outcome) ∧
        outcome.machine.dictionary.size = m.dictionary.size) ∧
    (∀ budget name token n, (Operation.ask (.defineColon name)).perform budget m =
      some (.done token n) →
      m.Defines name .nested token n) ∧
    ∀ budget name body token n,
      (Operation.define name body).perform budget m = some (.done token n) →
      m.Defines name (.host body) token n := by
  have hdefine : ∀ name action token n, m.attemptWith (m.define name action false) = .done token n →
      m.Defines name action token n := by
    intro name action token n h
    cases hadded : m.define name action false with
    | ok added =>
        rw [hadded] at h
        cases h
        exact defines_of_define hadded
    | error fault => rw [hadded] at h; cases h
  refine ⟨fun n h => ⟨h.grows.here_le, h.grows.definitions⟩, ?_, ?_, ?_, ?_⟩
  · intro host p outcome hp houtcome
    unfold dispatch at houtcome
    split at houtcome
    · next effect heffect =>
        cases houtcome
        exact (Primitive.effect_steady heffect m).machine.dictionary.size
    · next hnone => cases p <;> cases hnone; exact absurd rfl hp
  · intro r budget outcome hruns houtcome
    refine ⟨fun host => r.perform_within (fun _ _ => .none _)
      (Nat.le_refl budget) m outcome houtcome, ?_⟩
    have hkept :=
      (hostless_codeInvariant m).perform budget r (fun h => by rw [hruns] at h; cases h) (.refl m)
    exact (hkept outcome houtcome).machine.dictionary.size
  · intro budget name token n h
    exact hdefine name .nested token n (Option.some.inj h)
  · intro budget name body token n h
    exact hdefine name (.host body) token n (Option.some.inj h)

/-- A host word that resets the machine if it finds a zero finds a one, and adds a definition; a
primitive is hidden meanwhile. -/
theorem tokens_stable_spared :
    ∃ m n, boot {} [] .null {} = .ok m ∧ m.Onward n ∧ n.dictionary.size = 79 ∧
      (n.dictionary.get? Primitive.dup.token).any (·.hidden) = true ∧ m.space.here ≤ n.space.here ∧
      m.dictionary.entries.toList.map Definition.core <+:
      n.dictionary.entries.toList.map Definition.core := by
  let body : HostCode := .require .pop fun x =>
    if x = 0 then .require .reset fun _ => .finish else .require (.defineColon "made") fun _ =>
      .finish
  let hide : Operation := .ask (.setHidden (UInt64.ofNat Primitive.dup.token) true)
  have hsession : ((boot {} [] .null {}).toOption.any fun m =>
      ((Operation.define "MAKE" body).performOnward 1 m).isSome &&
      ((Operation.define "MAKE" body).perform 1 m).endsWith none fun s =>
      (hide.performOnward 1 s).isSome &&
      (hide.perform 1 s).endsWith none fun t =>
      ((Operation.ask (.push 1)).performOnward 1 t).isSome &&
      ((Operation.ask (.push 1)).perform 1 t).endsWith none fun u =>
        ((Operation.ask (.execute 77)).performOnward 1 u).isSome &&
        ((Operation.ask (.execute 77)).perform 1 u).endsWith none fun n =>
          n.dictionary.size == 79 && (n.dictionary.get? Primitive.dup.token).any (·.hidden)) =
          true := by
    decide +kernel
  obtain ⟨m, hm, hsession⟩ := exists_ok_of_any hsession
  obtain ⟨hfirst, hsession⟩ := (Bool.and_eq_true _ _).mp hsession
  obtain ⟨_, s, hs, hsession⟩ := Run.exists_done hsession
  obtain ⟨hsecond, hsession⟩ := (Bool.and_eq_true _ _).mp hsession
  obtain ⟨_, t, ht, hsession⟩ := Run.exists_done hsession
  obtain ⟨hthird, hsession⟩ := (Bool.and_eq_true _ _).mp hsession
  obtain ⟨_, u, hu, hsession⟩ := Run.exists_done hsession
  obtain ⟨hfourth, hsession⟩ := (Bool.and_eq_true _ _).mp hsession
  obtain ⟨_, n, hn, hchecks⟩ := Run.exists_done hsession
  obtain ⟨hsize, hhidden⟩ := (Bool.and_eq_true _ _).mp hchecks
  have honward : m.Onward n :=
    .perform _ 1 (.perform _ 1 (.perform _ 1 (.perform _ 1 .refl hs hfirst) ht hsecond)
    hu hthird) hn hfourth
  obtain ⟨hhere, hdefinitions⟩ := (tokens_stable m).1 n honward
  exact ⟨m, n, hm, honward, beq_iff_eq.mp hsize, hhidden, hhere, hdefinitions⟩

end Machine

end ThreadedForth
