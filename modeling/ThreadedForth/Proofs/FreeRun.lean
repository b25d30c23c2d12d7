import ThreadedForth.Proofs.Insensitivity
import ThreadedForth.Proofs.Threading

/-!
# Running freely

Executing a token and running freely take the same steps, but end differently. Execution ends where
the cursor is what it was at the start, a free run only when a step halts. Where the cursor is unset
the next step halts for lack of instructions, so from an unset cursor both come to the same end,
unless that fault can arise elsewhere. It cannot on a machine without host words: as long as there
is a cursor, neither a step nor a word that it invokes, through however many words that invoke
others, misses one.
-/

namespace ThreadedForth

/-- Running on after success leads to an outcome exactly if there was success. -/
theorem Run.andThen_eq_some {run : Run Unit} {next : Machine → Run Unit} {outcome : Outcome Unit} :
    run.andThen next = some outcome ↔
      (∃ n, run = some (.done () n) ∧ next n = some outcome) ∨
        ∃ reason n, run = some (.halted reason n) ∧ outcome = .halted reason n := by
  rcases run with _ | ⟨_, n⟩ | ⟨reason, n⟩
  · simp [andThen]
  · simp [andThen]
  · simp [andThen, eq_comm]

/-- How a free run ends where stepping up to the unset cursor has ended: after success there are no
instructions. -/
def Outcome.freed : Outcome Unit → Outcome Empty
  | .done _ n => .halted (.fault .noInstructions) n
  | .halted reason n => .halted reason n

namespace Machine

variable {config : Config} {arguments : List String} {host : HostRunner} {m n : Machine}

/-- A machine of a session without host words. -/
structure Plain (config : Config) (arguments : List String) (m : Machine) : Prop where
  wellFormed : m.WellFormed config arguments
  hostFree : m.HostFree

/-- Continuing such a machine keeps it so. -/
theorem Plain.continues (h : m.Plain config arguments) (hmn : m.Continues n) :
    n.Plain config arguments :=
  ⟨h.wellFormed.continues hmn, h.hostFree.continues hmn⟩

/-- Code keeps such a machine so. -/
theorem Plain.codeInvariant (config : Config) (arguments : List String) (host : HostRunner) :
    CodeInvariant host (fun _ => True) (Plain config arguments) :=
  .of_continues (fun _ _ h hcontinues => h.continues hcontinues) fun _ _ _ _ h hget haction =>
    absurd haction (h.hostFree _ _ _ hget)

/-- Words that are invoked while there is a cursor do not miss one. -/
theorem supplied_contract (config : Config) (arguments : List String) (host : HostRunner) :
    InvokeContract host (· ≠ .fault .noInstructions)
      (fun m => m.Plain config arguments ∧ m.cursor ≠ none) (fun _ => True) where
  hosted h hget haction := absurd haction (h.1.hostFree _ _ _ hget)
  refuses {m fault} h hfault := by
    have hallows : m.Allows (.fault fault) := hfault.tolerates
    exact ⟨trivial, hallows.ne_noInstructions h.1.wellFormed.here_lt_size h.2⟩
  effect {m _ _} h heffect :=
    (Primitive.effect_steady heffect m).weaken (fun _ _ => trivial) fun _ hallows =>
    hallows.ne_noInstructions h.1.wellFormed.here_lt_size h.2
  call {m _ d} h _ _ := (m.call_steady d.body).attempt.weaken (fun _ _ => trivial) fun _ hallows =>
    hallows.ne_noInstructions h.1.wellFormed.here_lt_size h.2
  take h hcells := ⟨h.1.continues (continues_of_cells hcells), h.2⟩
  enter _ h := ⟨h.1.continues (.free _ _ _ _ _), h.2⟩

/-- A step from a cursor does not end for lack of one. -/
theorem Plain.step_ne_noInstructions (h : m.Plain config arguments) (hcursor : m.cursor ≠ none) :
    m.step host ≠ some (.halted (.fault .noInstructions) n) := by
  intro hstep
  have hmeets := (supplied_contract config arguments host).step ⟨h, hcursor⟩ fun slot =>
    ⟨h.continues (.free m _ _ _ _), Option.some_ne_none slot⟩
  exact (hmeets _ hstep).2 rfl

/-- A step without a cursor ends for lack of one. -/
theorem step_of_unset (host : HostRunner) (h : m.cursor = none) :
    m.step host = some (.halted (.fault .noInstructions) m) := by
  unfold step operand
  rw [h]
  rfl

/-- A free run without a cursor ends at once. -/
theorem run_of_unset (host : HostRunner) (budget : Nat) (h : m.cursor = none) :
    m.run host (budget + 1) = some (.halted (.fault .noInstructions) m) := by
  rw [run, step_of_unset host h]

/-- Steps up to a cursor admit induction: where they have arrived, where one of them halts, and past
each of the others. -/
theorem stepUntil_induction {stop : Option Cell} {motive : Machine → Outcome Unit → Prop}
    (arrived : ∀ m, m.cursor = stop → motive m (.done () m))
    (halted : ∀ m reason n, m.cursor ≠ stop → m.step host = some (.halted reason n) →
      motive m (.halted reason n))
    (stepped : ∀ m n outcome, m.cursor ≠ stop → m.step host = some (.done () n) → motive n outcome →
      motive m outcome)
    {budget : Nat} {outcome : Outcome Unit} (h : m.stepUntil host stop budget = some outcome) :
    motive m outcome := by
  induction budget generalizing m with
  | zero =>
      rw [stepUntil] at h
      split at h
      · next hcursor => cases h; exact arrived m hcursor
      · cases h
  | succ budget ih =>
      rw [stepUntil_succ] at h
      split at h
      · next hcursor => cases h; exact arrived m hcursor
      · next hcursor =>
          rcases Run.andThen_eq_some.mp h with ⟨n, hstep, hrest⟩ | ⟨reason, n, hstep, rfl⟩
          · exact stepped m n outcome hcursor hstep (ih hrest)
          · exact halted m reason n hcursor hstep

/-- A free run goes on to where stepping up to the unset cursor ends, and then ends for lack of
instructions if that was a success. -/
theorem run_of_stepUntil {budget : Nat} {outcome : Outcome Unit}
    (h : m.stepUntil host none budget = some outcome) :
    ∃ budget, m.run host budget = some outcome.freed := by
  refine stepUntil_induction
    (motive := fun m outcome => ∃ budget, m.run host budget = some outcome.freed) ?_ ?_ ?_ h
  · intro m hcursor
    exact ⟨1, run_of_unset host 0 hcursor⟩
  · intro m reason n _ hstep
    exact ⟨1, by rw [run, hstep]; rfl⟩
  · rintro m n outcome _ hstep ⟨budget, hrun⟩
    exact ⟨budget + 1, by rw [run, hstep]; exact hrun⟩

/-- Stepping up to the unset cursor ends where a free run does. -/
theorem stepUntil_of_run {budget : Nat} {ended : Outcome Empty}
    (h : m.run host budget = some ended) :
    ∃ outcome, m.stepUntil host none budget = some outcome ∧ outcome.freed = ended := by
  induction budget generalizing m with
  | zero => cases h
  | succ budget ih =>
      by_cases hcursor : m.cursor = none
      · rw [run_of_unset host budget hcursor] at h
        cases h
        exact ⟨.done () m, stepUntil_of_cursor hcursor host _, rfl⟩
      · rw [stepUntil_succ, if_neg hcursor]
        rw [run] at h
        split at h
        · next n hstep => rw [hstep]; exact ih h
        · next reason n hstep => cases h; exact ⟨.halted reason n, by rw [hstep]; rfl, rfl⟩
        · cases h

/-- Where stepping up to a cursor ends with success, that is the cursor. -/
theorem cursor_of_stepUntil {stop : Option Cell} {budget : Nat}
    (h : m.stepUntil host stop budget = some (.done () n)) : n.cursor = stop := by
  refine stepUntil_induction
    (motive := fun _ outcome => outcome = .done () n → n.cursor = stop) ?_ ?_ ?_ h rfl
  · rintro _ hcursor ⟨⟩
    exact hcursor
  · rintro _ _ _ _ _ ⟨⟩
  · exact fun _ _ _ _ _ ih => ih

/-- Stepping up to the unset cursor does not end for lack of instructions. -/
theorem Plain.stepUntil_ne_noInstructions (h : m.Plain config arguments) {budget : Nat} :
    m.stepUntil host none budget ≠ some (.halted (.fault .noInstructions) n) := by
  intro hended
  refine stepUntil_induction (motive := fun m outcome => m.Plain config arguments →
    outcome ≠ .halted (.fault .noInstructions) n) ?_ ?_ ?_ hended h rfl
  · rintro _ _ _ ⟨⟩
  · rintro m _ _ hcursor hstep hplain ⟨⟩
    exact hplain.step_ne_noInstructions hcursor hstep
  · intro m o outcome _ hstep ih hplain
    exact ih ((Plain.codeInvariant config arguments host).step hplain _ hstep)

/-- A free run ends for lack of instructions exactly where stepping up to the unset cursor
succeeds. -/
theorem Plain.run_noInstructions_iff (h : m.Plain config arguments) :
    (∃ budget, m.run host budget = some (.halted (.fault .noInstructions) n)) ↔
      ∃ budget, m.stepUntil host none budget = some (.done () n) := by
  constructor
  · rintro ⟨budget, hrun⟩
    obtain ⟨outcome, houtcome, hfreed⟩ := stepUntil_of_run hrun
    cases outcome with
    | done _ o => cases hfreed; exact ⟨budget, houtcome⟩
    | halted reason o => cases hfreed; exact absurd houtcome h.stepUntil_ne_noInstructions
  · rintro ⟨budget, hstepped⟩
    exact run_of_stepUntil hstepped

/-- For every other reason, a free run and stepping up to the unset cursor halt alike. -/
theorem run_halted_iff {reason : Halt} (hreason : reason ≠ .fault .noInstructions) :
    (∃ budget, m.run host budget = some (.halted reason n)) ↔
      ∃ budget, m.stepUntil host none budget = some (.halted reason n) := by
  constructor
  · rintro ⟨budget, hrun⟩
    obtain ⟨outcome, houtcome, hfreed⟩ := stepUntil_of_run hrun
    cases outcome with
    | done _ o => cases hfreed; exact absurd rfl hreason
    | halted _ o => cases hfreed; exact ⟨budget, houtcome⟩
  · rintro ⟨budget, hstepped⟩
    exact run_of_stepUntil hstepped

/-- Invoking a nested definition either saves the cursor or finds no room for it. -/
theorem invoke_nested_cases (m : Machine) (host : HostRunner) (token : Cell) {d : Definition}
    (haction : d.action = .nested) :
    (∃ n, m.invoke host token d = some (.done () n) ∧ m.returns.depth < n.returns.depth) ∨
      ∃ fault, m.invoke host token d = some (.halted (.fault fault) (m.enter token)) ∧
        fault.blamesStack = true := by
  have hconserves : m.returns.Conserves (m.returns.push (saveCursor m.cursor)) :=
    Stack.push_conserves _ rfl
  rw [invoke_of_nested host token haction]
  unfold call
  cases hpush : m.returns.push (saveCursor m.cursor) with
  | ok returns =>
      have hdepth : m.returns.depth < returns.depth := by
        simp only [Stack.depth, (Stack.push_eq_ok.mp hpush).1, List.length_cons]
        omega
      exact .inl ⟨(m.enter token).withControl
        ⟨some (UInt64.ofNat d.body), returns, some token.toNat⟩,
        by simp only [enter, hpush]; rfl, hdepth⟩
  | error fault =>
      rw [hpush] at hconserves
      exact .inr ⟨fault, by simp only [enter, hpush]; rfl, hconserves⟩

/-- Executing a nested definition invokes it and steps through its code. -/
theorem execute_nested_eq (host : HostRunner) (budget : Nat) {token : Cell} {d : Definition}
    (hresolve : m.resolve token = .ok d) (haction : d.action = .nested) :
    m.execute host budget token =
      (m.invoke host token d).andThen fun n => n.stepUntil host m.cursor budget := by
  rw [execute_eq, hresolve]
  rcases m.invoke_nested_cases host token haction with ⟨n, hinvoke, hdepth⟩ | ⟨fault, hinvoke, -⟩
  · simp only [checked, hinvoke, Run.andThen, if_pos hdepth]
  · simp only [checked, hinvoke, Run.andThen]

/-- Steps keep a machine of a session without host words so. -/
theorem Plain.steps (h : m.Plain config arguments) {count : Nat}
    (hsteps : m.steps host count = some (count, .done () n)) : n.Plain config arguments := by
  induction count generalizing m with
  | zero => cases hsteps; exact h
  | succ count ih =>
      obtain ⟨o, hstep, hrest⟩ := steps_succ_eq_done.mp hsteps
      exact ih ((Plain.codeInvariant config arguments host).step h _ hstep) hrest

/-- Execution and free runs agree. From an unset cursor, executing a nested definition succeeds
exactly if a free run after invoking it ends for lack of instructions, on the same machine, whose
cursor is unset again; and it halts exactly if the invocation or the free run halts for the same
reason, which is another one. So neither the invocation nor a step from any cursor that the code
comes to ends for lack of instructions. -/
theorem Live.execute_iff_run (live : Live config arguments m) (hfree : m.HostFree)
    (hcursor : m.cursor = none) {token : Cell} {d : Definition} (hresolve : m.resolve token = .ok d)
    (haction : d.action = .nested) (host : HostRunner) :
    (∀ s, (∃ budget, m.execute host budget token = some (.done () s)) ↔
      ∃ n, m.invoke host token d = some (.done () n) ∧
        ∃ budget, n.run host budget = some (.halted (.fault .noInstructions) s)) ∧
    (∀ s, (∃ budget, m.execute host budget token = some (.done () s)) → s.cursor = none) ∧
    (∀ reason s, (∃ budget, m.execute host budget token = some (.halted reason s)) ↔
      reason ≠ .fault .noInstructions ∧ (m.invoke host token d = some (.halted reason s) ∨
        ∃ n, m.invoke host token d = some (.done () n) ∧
          ∃ budget, n.run host budget = some (.halted reason s))) ∧
    (∀ s, m.invoke host token d ≠ some (.halted (.fault .noInstructions) s)) ∧
    ∀ n count o s, m.invoke host token d = some (.done () n) →
      n.steps host count = some (count, .done () o) →
      o.cursor ≠ none → o.step host ≠ some (.halted (.fault .noInstructions) s) := by
  have hplain : m.Plain config arguments := ⟨live.wellFormed, hfree⟩
  have hentered : ∀ n, m.invoke host token d = some (.done () n) → n.Plain config arguments :=
    fun n hn =>
    (Plain.codeInvariant config arguments host).invoke hplain hresolve _ hn
  have hdone : ∀ budget s, m.execute host budget token = some (.done () s) ↔
      ∃ n, m.invoke host token d = some (.done () n) ∧
        n.stepUntil host none budget = some (.done () s) := by
    intro budget s
    rw [execute_nested_eq host budget hresolve haction, hcursor, Run.andThen_eq_some]
    simp
  have hhalted : ∀ budget reason s, m.execute host budget token = some (.halted reason s) ↔
      m.invoke host token d = some (.halted reason s) ∨
        ∃ n, m.invoke host token d = some (.done () n) ∧
          n.stepUntil host none budget = some (.halted reason s) := by
    intro budget reason s
    rw [execute_nested_eq host budget hresolve haction, hcursor, Run.andThen_eq_some, or_comm]
    simp
  have hinvoke : ∀ s, m.invoke host token d ≠ some (.halted (.fault .noInstructions) s) := by
    intro s hs
    rcases m.invoke_nested_cases host token haction with ⟨n, hn, -⟩ | ⟨fault, hfault, hblames⟩
    · rw [hn] at hs
      cases hs
    · rw [hfault] at hs
      cases hs
      cases hblames
  refine ⟨fun s => ⟨?_, ?_⟩, ?_, fun reason s => ⟨?_, ?_⟩, hinvoke, ?_⟩
  · rintro ⟨budget, h⟩
    obtain ⟨n, hn, hs⟩ := (hdone budget s).mp h
    exact ⟨n, hn, (hentered n hn).run_noInstructions_iff.mpr ⟨budget, hs⟩⟩
  · rintro ⟨n, hn, hrun⟩
    obtain ⟨budget, hs⟩ := (hentered n hn).run_noInstructions_iff.mp hrun
    exact ⟨budget, (hdone budget s).mpr ⟨n, hn, hs⟩⟩
  · rintro s ⟨budget, h⟩
    obtain ⟨n, -, hs⟩ := (hdone budget s).mp h
    exact cursor_of_stepUntil hs
  · rintro ⟨budget, h⟩
    rcases (hhalted budget reason s).mp h with hs | ⟨n, hn, hs⟩
    · exact ⟨fun heq => hinvoke s (heq ▸ hs), .inl hs⟩
    · have hreason : reason ≠ .fault .noInstructions := by
        rintro rfl
        exact (hentered n hn).stepUntil_ne_noInstructions hs
      exact ⟨hreason, .inr ⟨n, hn, (run_halted_iff hreason).mpr ⟨budget, hs⟩⟩⟩
  · rintro ⟨hreason, hs | ⟨n, hn, hrun⟩⟩
    · exact ⟨0, (hhalted 0 reason s).mpr (.inl hs)⟩
    · obtain ⟨budget, hs⟩ := (run_halted_iff hreason).mp hrun
      exact ⟨budget, (hhalted budget reason s).mpr (.inr ⟨n, hn, hs⟩)⟩
  · intro n count o s hn hsteps hset
    exact ((hentered n hn).steps hsteps).step_ne_noInstructions hset

/-- A definition that pushes a literal is executed with success, so a free run of it ends for lack
of instructions. -/
theorem Live.execute_iff_run_literal :
    ∃ m d n s budget, Live {} [] m ∧ m.HostFree ∧ m.cursor = none ∧ m.resolve 77 = .ok d ∧
      d.action = .nested ∧ m.invoke (HostCode.run 0) 77 d = some (.done () n) ∧
      n.run (HostCode.run 0) budget = some (.halted (.fault .noInstructions) s) ∧
      s.data.cells = [5] ∧ s.cursor = none := by
  let literal : Request := .compileLiteral 5
  let exit : Request := .compileToken (UInt64.ofNat Primitive.exit.token)
  have hsession : ((Machine.boot {} [] .null {}).toOption.any fun b =>
      (b.define "W" .nested false).toOption.any fun added => added.1 == 77 &&
        (literal.perform (HostCode.run 0) 0 added.2).endsWith none fun l =>
          (exit.perform (HostCode.run 0) 0 l).endsWith none fun m =>
            m.cursor == none &&
            (m.execute (HostCode.run 0) 2 77).endsWith none (·.data.cells == [5])) = true := by
    decide +kernel
  obtain ⟨b, hboot, hsession⟩ := exists_ok_of_any hsession
  obtain ⟨⟨token, c⟩, hdefine, hsession⟩ := exists_ok_of_any hsession
  obtain ⟨htoken, hsession⟩ := (Bool.and_eq_true _ _).mp hsession
  obtain ⟨_, l, hliteral, hsession⟩ := Run.exists_done hsession
  obtain ⟨_, m, hexit, hsession⟩ := Run.exists_done hsession
  obtain ⟨hcursor, hsession⟩ := (Bool.and_eq_true _ _).mp hsession
  obtain ⟨_, s, hexecute, hcells⟩ := Run.exists_done hsession
  have hcolon : (Operation.ask (.defineColon "W")).perform 0 b = some (.done token c) :=
    congrArg (fun change => some (b.attemptWith change)) hdefine
  have live : Live {} [] m :=
    .perform (.ask exit) 0
      (.perform (.ask literal) 0 (.perform _ 0 (.boot hboot) hcolon) hliteral) hexit
  have hbooted : b.HostFree := hostFree_of_fresh (boot_eq_ok.mp hboot).2
  have hcontinues : c.Continues m := (literal.perform_continues rfl nofun nofun hliteral).trans
    (exit.perform_continues rfl nofun nofun hexit)
  have hfree : m.HostFree := (hbooted.define hdefine nofun).continues hcontinues
  obtain ⟨d, hget, haction⟩ : ∃ d, m.dictionary.get? 77 = some d ∧ d.action = .nested := by
    obtain ⟨-, rfl, rfl⟩ := define_eq_ok.mp hdefine
    obtain ⟨d, hd, -, haction, -⟩ :=
      hcontinues.dictionary.get? (Dictionary.get?_push.trans (if_pos rfl))
    exact ⟨d, beq_iff_eq.mp htoken ▸ hd, haction⟩
  have hresolve : m.resolve 77 = .ok d := resolve_eq_ok.mpr hget
  obtain ⟨hiff, hunset, -⟩ :=
    live.execute_iff_run hfree (beq_iff_eq.mp hcursor) hresolve haction (HostCode.run 0)
  obtain ⟨n, hinvoke, budget, hrun⟩ := (hiff s).mp ⟨2, hexecute⟩
  exact ⟨m, d, n, s, budget, live, hfree, beq_iff_eq.mp hcursor, hresolve, haction, hinvoke, hrun,
    beq_iff_eq.mp hcells, hunset s ⟨2, hexecute⟩⟩

end Machine

end ThreadedForth
