import ThreadedForth.Proofs.CommandLine

/-!
# Sessions that add no definition

An application that only works with the words it is given can still put anything on the stacks,
write anywhere in data space, and set the cursor to any cell. Still none of its tokens leads into a
loop: each is invoked, and there it ends, with no step taken. The return stack may have grown then,
or the cursor may have moved, but never both, and that is what would have to happen for code to be
stepped through. The interpreter of command lines adds no definition either, so it comes to the end
of every command line.
-/

namespace ThreadedForth

/-- Whether a request leaves the definitions of a machine to be those that it is started with. -/
def Request.definesNothing : Request → Bool
  | .defineColon _ => false
  | _ => true

namespace Machine

/-- The machines of sessions in which no definition is ever added. Anything else may be requested,
with any success, and the clock may be set at any time. -/
inductive Unextended (config : Config) (arguments : List String) : Machine → Prop where
  | boot {console : Console} {clock : Clock} {m : Machine} :
      Machine.boot config arguments console clock = .ok m → Unextended config arguments m
  | perform {m : Machine} {r : Request} {budget : Nat} {outcome : Outcome r.Reply} :
      Unextended config arguments m →
      r.definesNothing = true → (Operation.ask r).perform budget m = some outcome →
      Unextended config arguments outcome.machine
  | tick {m : Machine} (clock : Clock) : Unextended config arguments m →
      Unextended config arguments { m with clock := clock }

variable {config : Config} {arguments : List String} {m n : Machine}

/-- A session that adds no definition is a session. -/
theorem Unextended.live (h : Unextended config arguments m) : Live config arguments m := by
  induction h with
  | boot hboot => exact .boot hboot
  | perform _ _ hperform ih => exact ih.perform _ _ hperform
  | tick clock _ ih => exact ih.tick clock

/-- A machine that is reset has primitives only, as at the start of its session. -/
theorem bare_of_reset (hwell : m.WellFormed config arguments) (hreset : m.reset = .ok n) :
    n.Bare := by
  have hmeets := fresh_meets hwell.valid arguments m.console m.clock
  rw [reset, hwell.config_eq, hwell.arguments_eq] at hreset
  rw [hreset] at hmeets
  exact hmeets.2

/-- A request that adds no definition and runs no code leaves primitives only. -/
theorem Bare.request (h : m.Bare) (hwell : m.WellFormed config arguments) {r : Request}
    {host : HostRunner} {budget : Nat} {outcome : Outcome r.Reply}
    (hdefines : r.definesNothing = true) (hruns : r.runsCode = false)
    (hperform : r.perform host budget m = some outcome) : outcome.machine.Bare := by
  cases r with
  | defineColon name => cases hdefines
  | reset =>
      cases hperform
      cases hreset : m.reset with
      | ok n => exact bare_of_reset hwell hreset
      | error fault => exact h
  | _ => exact h.continues (Request.perform_continues _ hruns (by simp) (by simp) hperform)

/-- A session that adds no definition has primitives only. -/
theorem Unextended.bare (h : Unextended config arguments m) : m.Bare := by
  induction h with
  | boot hboot => exact (CommandLine.boot_bare hboot).1
  | @perform m r budget outcome h hdefines hperform ih =>
      refine ((Bare.codeInvariant (HostCode.run budget)).perform budget r
        (fun hruns => ?_) ih _ hperform).machine
      intro outcome houtcome
      exact Outcome.meets_of_machine (ih.request h.live.wellFormed hdefines hruns houtcome)
  | tick clock _ ih => exact ih

/-- In a session that adds no definition, a token that names a definition is invoked and no step is
taken. -/
theorem Unextended.execute_eq (h : Unextended config arguments m) {token : Cell} {d : Definition}
    (hd : m.resolve token = .ok d) :
    ∃ outcome, (∀ host, m.invoke host token d = some outcome) ∧
      (∀ host budget, m.execute host budget token = some outcome) ∧ m.Stays outcome.machine := by
  obtain ⟨outcome, hends⟩ := h.bare.execute_ends token
  have hinvoke : ∀ host, m.invoke host token d = some outcome := by
    intro host
    rw [← h.bare.execute_eq_invoke host 0 hd, hends]
  have hstays := (Bare.invokeContract m fun _ _ => none).invoke ⟨h.bare, rfl, rfl⟩ hd
  exact ⟨outcome, hinvoke, hends, (hstays _ (hinvoke _)).machine⟩

end Machine

namespace CommandLine

open Machine

variable {config : Config} {arguments : List String} {m n : Machine}

/-- A token of a command line adds no definition. -/
theorem Proceeds.unextended {token : String} (h : Proceeds m token n)
    (hm : Unextended config arguments m) : Unextended config arguments n := by
  cases h with
  | @push x _ _ hpush =>
      have hperform : (Operation.ask (.push x)).perform 0 m = some (.done () n) := by
        rw [Operation.perform, Request.perform, hpush]
        rfl
      exact hm.perform rfl hperform
  | execute _ _ hperform => exact hm.perform rfl hperform

/-- Nor does the token that stops the session. -/
theorem Stops.unextended {token text : String} {status : Nat} (h : Stops m token status text n)
    (hm : Unextended config arguments m) : Unextended config arguments n := by
  cases h with
  | unknown | overflow => exact hm
  | fault _ _ hperform => exact hm.perform rfl hperform
  | bye _ _ hperform => exact hm.perform rfl hperform

/-- Nor do the tokens before it. -/
theorem Passes.unextended {tokens : List String} {chunks : List (List UInt8)}
    {lines : List (List (List UInt8))} (h : Passes m tokens chunks lines n)
    (hm : Unextended config arguments m) : Unextended config arguments n := by
  induction h with
  | nil => exact hm
  | cons hproceeds _ _ _ ih => exact ih (hproceeds.unextended hm)

/-- The interpretation of tokens comes to its end, and no definition has been added. -/
theorem interpret_ends (hm : Unextended config arguments m) (tokens : List String) :
    ∃ stop n, interpret m tokens = some (stop, n) ∧ Unextended config arguments n := by
  rcases interpret_cases hm.bare tokens with ⟨chunks, lines, n, hpasses, hend⟩ |
    ⟨earlier, token, later, chunks, lines, n, stop, s, rfl, hpasses, hstops, hend⟩
  · exact ⟨none, n, hend, hpasses.unextended hm⟩
  · exact ⟨some stop, s, hend later, hstops.unextended (hpasses.unextended hm)⟩

end CommandLine

/-- In a session that adds no definition, a token that names a definition is invoked once, in the
same way under every budget of steps, even none, and whatever host programs would do. It leaves the
return stack no deeper or the cursor where it was. Interpreting tokens comes to an end in such a
session, which goes on to be one, and so every command line comes to its report. -/
theorem Machine.unextended_ends :
    (∀ config arguments m, Unextended config arguments m →
      (∀ token d, m.resolve token = .ok d →
        ∃ outcome, (∀ host, m.invoke host token d = some outcome) ∧
        (∀ host budget, m.execute host budget token = some outcome) ∧
        (outcome.machine.returns.depth ≤ m.returns.depth ∨ outcome.machine.cursor = m.cursor)) ∧
      ∀ tokens, ∃ stop n, CommandLine.interpret m tokens = some (stop, n) ∧
        Unextended config arguments n) ∧
    ∀ config tokens arguments input clock, ∃ report,
      CommandLine.run config tokens arguments input clock = some report := by
  refine ⟨fun config arguments m h => ⟨fun token d hd => h.execute_eq hd,
    CommandLine.interpret_ends h⟩, ?_⟩
  intro config tokens arguments input clock
  cases hboot : boot config (CommandLine.programName :: arguments) ⟨input, {}, []⟩ clock with
  | error error => exact ⟨_, CommandLine.run_of_error hboot tokens⟩
  | ok m =>
      obtain ⟨stop, n, bytes, taken, hinterpret, hwrites, hreads⟩ :=
        CommandLine.interpret_uses (Unextended.boot hboot).bare tokens
      exact ⟨_, CommandLine.run_of_interpret hboot hinterpret hwrites hreads⟩

/-- With the cursor set, a word that is executed from the stack puts a cell on the return stack: the
return stack grows, the cursor stays, and no step is taken. -/
theorem Machine.unextended_ends_deeper :
    ∃ m n, Unextended {} [] m ∧ m.cursor = some 5 ∧ m.returns.depth = 0 ∧ n.returns.depth = 1 ∧
      n.cursor = some 5 ∧ (∃ d, m.resolve (UInt64.ofNat Primitive.execute.token) = .ok d ∧
        ∀ host, m.invoke host (UInt64.ofNat Primitive.execute.token) d = some (.done () n)) ∧
      ∀ host budget, m.execute host budget (UInt64.ofNat Primitive.execute.token) =
        some (.done () n) := by
  have hsession : ((Machine.boot {} [] ⟨{ pending := [] }, {}, []⟩ {}).toOption.any fun b =>
      ((Operation.ask (.setCursor (some 5))).perform 0 b).endsWith none fun s =>
        ((Operation.ask (.push 7)).perform 0 s).endsWith none fun t =>
          ((Operation.ask (.push (UInt64.ofNat Primitive.toR.token))).perform 0 t).endsWith none
            fun m =>
            m.cursor == some 5 && m.returns.depth == 0 &&
              (m.execute (HostCode.run 0) 0 (UInt64.ofNat Primitive.execute.token)).endsWith none
                fun n =>
                n.returns.depth == 1) = true := by decide +kernel
  obtain ⟨b, hboot, hsession⟩ := exists_ok_of_any hsession
  obtain ⟨_, s, hfirst, hsession⟩ := Run.exists_done hsession
  obtain ⟨_, t, hsecond, hsession⟩ := Run.exists_done hsession
  obtain ⟨_, m, hthird, hchecks⟩ := Run.exists_done hsession
  simp only [Bool.and_eq_true, beq_iff_eq] at hchecks
  obtain ⟨⟨hcursor, hdepth⟩, hexecute⟩ := hchecks
  obtain ⟨_, n, hexecute, hdeeper⟩ := Run.exists_done hexecute
  have hdeeper : n.returns.depth = 1 := beq_iff_eq.mp hdeeper
  have h : Unextended {} [] m :=
    (((Unextended.boot hboot).perform rfl hfirst).perform rfl hsecond).perform rfl hthird
  obtain ⟨d, hd, -, -⟩ := h.live.wellFormed.resolve_token .execute
  obtain ⟨outcome, hinvoke, hends, hstays⟩ := (unextended_ends.1 {} [] m h).1 _ d hd
  obtain rfl : outcome = .done () n := Option.some.inj ((hends _ _).symm.trans hexecute)
  refine ⟨m, n, h, hcursor, hdepth, hdeeper, ?_, ⟨d, hd, hinvoke⟩, hends⟩
  rcases hstays with hreturns | hstays
  · change n.returns.depth ≤ m.returns.depth at hreturns
    omega
  · exact hstays.trans hcursor

end ThreadedForth
