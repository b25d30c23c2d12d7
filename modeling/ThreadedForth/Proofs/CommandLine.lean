import ThreadedForth.CommandLine.Invocation
import ThreadedForth.Proofs.Restart
import ThreadedForth.Proofs.Truncation

/-!
# What a command line leaves behind

A command line is interpreted token by token. Each token is carried out, and either the session goes
on or it stops there, for one of three reasons: the token is neither a numeral nor a name, it causes
a fault, or it leaves the session. What comes after the token at which the session stops is never
looked at, and what came before stays written. So the output is made up of what the tokens have
written up to there, in order, and tokens that are added at the end of a command line take none of
it back. Standard error tells why the session has stopped, after the log has told which of the lines
that were read did not fit the input buffer.
-/

namespace ThreadedForth

/-- A machine that has written bytes since it was another one. -/
def Machine.Writes (m : Machine) (bytes : List UInt8) (n : Machine) : Prop :=
  n.console.output.written.toList = m.console.output.written.toList ++ bytes

namespace Machine

variable {m n o : Machine}

/-- What is written first and what is written then is written together. -/
theorem Writes.trans {first second : List UInt8} (hmn : m.Writes first n)
    (hno : n.Writes second o) : m.Writes (first ++ second) o := by
  rw [Writes, hno, hmn, List.append_assoc]

/-- Whatever an operation does, what has been written stays written. -/
theorem writes_of_perform {operation : Operation} {budget : Nat} {outcome : Outcome operation.Reply}
    (h : operation.perform budget m = some outcome) : ∃ bytes, m.Writes bytes outcome.machine := by
  let silent : Machine :=
    { m with console := { m.console with output := { m.console.output with written := #[] } } }
  have sim := Padding.earlier_bisimulation m.console.output.written []
  have hsilent : silent.Padded (.earlier m.console.output.written []) m := by
    have hpadded := silent.padded_afterOutput m.console.output.written []
    have hback : silent.afterOutput m.console.output.written [] = m := by
      simp [afterOutput, silent]
    rwa [hback] at hpadded
  have hmatches := sim.matches_of_coupled (sim.operation budget operation hsilent)
  rw [h] at hmatches
  have hwrites : ∀ {s t : Machine}, s.Padded (.earlier m.console.output.written []) t →
      ∃ bytes, m.Writes bytes t := by
    intro s t hst
    refine ⟨s.console.output.written.toList, ?_⟩
    rw [Padding.eq_afterOutput hst]
    exact Array.toList_append
  generalize operation.perform budget silent = run at hmatches
  cases hmatches with
  | done value hst => exact hwrites hst
  | halted reason hst => exact hwrites hst

end Machine

namespace CommandLine

open Machine

variable {m n o : Machine} {token : String} {tokens : List String} {chunks : List (List UInt8)}
  {lines : List (List (List UInt8))}

/-- A token is carried out and the session goes on: a numeral is pushed, and a name is looked up and
executed. -/
inductive Proceeds (m : Machine) (token : String) : Machine → Prop where
  | push {x : Cell} {n : Machine} :
      Numeral.read? token = some x → m.push x = .ok n → Proceeds m token n
  | execute {found budget : Nat} {n : Machine} :
      Numeral.read? token = none → m.find? token = some found →
      (Operation.ask (.execute (UInt64.ofNat found))).perform budget m = some (.done () n) →
      Proceeds m token n

/-- A token stops the session, with an exit status and the text of the diagnostics. -/
inductive Stops (m : Machine) (token : String) : Nat → String → Machine → Prop where
  | unknown : Numeral.read? token = none → m.find? token = none →
      Stops m token 1 ("error: unknown word '" ++ token ++ "'\n") m
  | overflow {x : Cell} {fault : Fault} : Numeral.read? token = some x → m.push x = .error fault →
      Stops m token 3 ("fault: " ++ fault.message ++ "\n") m
  | fault {found budget : Nat} {fault : Fault} {n : Machine} : Numeral.read? token = none →
      m.find? token = some found →
      (Operation.ask (.execute (UInt64.ofNat found))).perform budget m =
        some (.halted (.fault fault) n) →
      Stops m token 3 ("fault: " ++ fault.message ++ "\n") n
  | bye {found budget : Nat} {n : Machine} :
      Numeral.read? token = none → m.find? token = some found →
      (Operation.ask (.execute (UInt64.ofNat found))).perform budget m = some (.halted .bye n) →
      Stops m token 0 "" n

/-- Tokens that are all carried out, with the bytes that each of them writes and the lines that it
reads. -/
inductive Passes :
    Machine → List String → List (List UInt8) → List (List (List UInt8)) → Machine → Prop where
  | nil (m : Machine) : Passes m [] [] [] m
  | cons {m n o : Machine} {token : String} {tokens : List String} {bytes : List UInt8}
      {chunks : List (List UInt8)}
      {taken : List (List UInt8)} {lines : List (List (List UInt8))} :
      Proceeds m token n → m.Writes bytes n → m.Reads taken n → Passes n tokens chunks lines o →
      Passes m (token :: tokens) (bytes :: chunks) (taken :: lines) o

/-- A token is either carried out or stops the session, since an operation comes to one end only. -/
theorem Proceeds.not_stops (h : Proceeds m token n) {status : Nat} {text : String} :
    ¬ Stops m token status text o := by
  intro hstops
  have hagree : ∀ {found budget budget' : Nat} {outcome outcome' : Outcome Unit},
      (Operation.ask (.execute (UInt64.ofNat found))).perform budget m = some outcome →
      (Operation.ask (.execute (UInt64.ofNat found))).perform budget' m = some outcome' →
      outcome = outcome' := by
    intro found budget budget' outcome outcome' hfirst hsecond
    have hleft := Operation.perform_within (Nat.le_max_left budget budget') _ m _ hfirst
    have hright := Operation.perform_within (Nat.le_max_right budget budget') _ m _ hsecond
    exact Option.some.inj (hleft.symm.trans hright)
  cases h with
  | push hread hpush =>
      cases hstops with
      | overflow _ hfull => simp_all
      | unknown hnone | fault hnone | bye hnone => simp_all
  | execute hread hfind hperform =>
      cases hstops with
      | overflow hsome => simp_all
      | unknown _ hnone => simp_all
      | fault _ hfound hhalted | bye _ hfound hhalted =>
          cases hfind.symm.trans hfound
          cases hagree hperform hhalted

/-- A token that is carried out writes something, if only nothing. -/
theorem Proceeds.writes (h : Proceeds m token n) : ∃ bytes, m.Writes bytes n := by
  cases h with
  | push _ hpush =>
      obtain ⟨data, -, hn⟩ := bind_eq_ok.mp hpush
      cases hn
      exact ⟨[], (List.append_nil _).symm⟩
  | execute _ _ hperform => exact writes_of_perform hperform

/-- So does a token that stops the session. -/
theorem Stops.writes {status : Nat} {text : String} (h : Stops m token status text n) :
    ∃ bytes, m.Writes bytes n := by
  cases h with
  | unknown | overflow => exact ⟨[], (List.append_nil _).symm⟩
  | fault _ _ hperform => exact writes_of_perform hperform
  | bye _ _ hperform => exact writes_of_perform hperform

/-- A token that is carried out adds no definition, and notes in the log which of the lines it reads
are too long. -/
theorem Proceeds.bareAfter (h : Proceeds m token n) (hm : m.Bare) : m.BareAfter n := by
  cases h with
  | push _ hpush =>
      obtain ⟨data, -, hn⟩ := bind_eq_ok.mp hpush
      cases hn
      exact ⟨hm, rfl, [], .of_eq rfl rfl⟩
  | execute _ _ hperform => exact hm.execute_bareAfter hperform

/-- So does a token that stops the session. -/
theorem Stops.bareAfter {status : Nat} {text : String} (h : Stops m token status text n)
    (hm : m.Bare) : m.BareAfter n := by
  cases h with
  | unknown | overflow => exact ⟨hm, rfl, [], .of_eq rfl rfl⟩
  | fault _ _ hperform => exact hm.execute_bareAfter hperform
  | bye _ _ hperform => exact hm.execute_bareAfter hperform

/-- Where there are primitives only, every token either is carried out or stops the session. -/
theorem interpretToken_cases (hm : m.Bare) (token : String) :
    (∃ n, interpretToken m token = some (none, n) ∧ Proceeds m token n) ∨
      ∃ stop n, interpretToken m token = some (some stop, n) ∧
        Stops m token (status (some stop)) (diagnostics (some stop)) n := by
  unfold interpretToken
  cases hread : Numeral.read? token with
  | some x =>
      dsimp only
      cases hpush : m.push x with
      | ok n => exact .inl ⟨n, rfl, .push hread hpush⟩
      | error fault => exact .inr ⟨.halted (.fault fault), m, rfl, .overflow hread hpush⟩
  | none =>
      cases hfind : m.find? token with
      | none => exact .inr ⟨.unknownWord token, m, rfl, .unknown hread hfind⟩
      | some found =>
          obtain ⟨outcome, hends⟩ := hm.execute_ends (UInt64.ofNat found)
          have hperform : (Operation.ask (.execute (UInt64.ofNat found))).perform 0 m =
              some outcome := hends _ _
          dsimp only
          rw [executeToken, hends]
          rcases outcome with ⟨_, n⟩ | ⟨_ | fault, n⟩
          · exact .inl ⟨n, rfl, .execute hread hfind hperform⟩
          · exact .inr ⟨.halted .bye, n, rfl, .bye hread hfind hperform⟩
          · exact .inr ⟨.halted (.fault fault), n, rfl, .fault hread hfind hperform⟩

/-- What tokens write, they write one after the other. -/
theorem Passes.writes (h : Passes m tokens chunks lines n) : m.Writes chunks.flatten n := by
  induction h with
  | nil m => exact (List.append_nil _).symm
  | cons _ hwrites _ _ ih => exact hwrites.trans ih

/-- Tokens that are carried out add no definition, and the lines that they read, they read one after
the other. -/
theorem Passes.reads (h : Passes m tokens chunks lines n) (hm : m.Bare) :
    n.Bare ∧ n.config = m.config ∧ m.Reads lines.flatten n := by
  induction h with
  | nil => exact ⟨hm, rfl, .of_eq rfl rfl⟩
  | cons hproceeds _ hreads _ ih =>
      obtain ⟨hbare, hconfig, -⟩ := hproceeds.bareAfter hm
      obtain ⟨hlast, hconfig', hrest⟩ := ih hbare
      exact ⟨hlast, hconfig'.trans hconfig, hreads.trans hconfig hrest⟩

/-- Interpretation either comes to the end of the tokens or stops at one of them, whatever comes
after it. -/
theorem interpret_cases (hm : m.Bare) (tokens : List String) :
    (∃ chunks lines n, Passes m tokens chunks lines n ∧ interpret m tokens = some (none, n)) ∨
      ∃ earlier token later chunks lines n stop s, tokens = earlier ++ token :: later ∧
        Passes m earlier chunks lines n ∧
        Stops n token (status (some stop)) (diagnostics (some stop)) s ∧
        ∀ others, interpret m (earlier ++ token :: others) = some (some stop, s) := by
  induction tokens generalizing m with
  | nil => exact .inl ⟨[], [], m, .nil m, rfl⟩
  | cons token tokens ih =>
      rcases interpretToken_cases hm token with ⟨n, htoken, hproceeds⟩ | ⟨stop, s, htoken, hstops⟩
      · have hgoes : ∀ rest, interpret m (token :: rest) = interpret n rest := by
          intro rest
          rw [interpret, htoken]
        obtain ⟨bytes, hwrites⟩ := hproceeds.writes
        obtain ⟨hbare, -, taken, hreads⟩ := hproceeds.bareAfter hm
        rcases ih hbare with ⟨chunks, lines, o, hpasses, hend⟩ |
          ⟨earlier, next, later, chunks, lines, o, stop, s, rfl, hpasses, hstops, hend⟩
        · exact .inl ⟨bytes :: chunks, taken :: lines, o, .cons hproceeds hwrites hreads hpasses,
            (hgoes _).trans hend⟩
        · exact .inr ⟨token :: earlier, next, later, bytes :: chunks, taken :: lines, o, stop, s,
            rfl, .cons hproceeds hwrites hreads hpasses, hstops,
            fun others => (hgoes _).trans (hend others)⟩
      · refine .inr ⟨[], token, tokens, [], [], m, stop, s, rfl, .nil m, hstops, fun others => ?_⟩
        rw [List.nil_append, interpret, htoken]

/-- Interpretation goes on behind tokens that have not stopped it. -/
theorem interpret_append (h : interpret m tokens = some (none, n)) (more : List String) :
    interpret m (tokens ++ more) = interpret n more := by
  induction tokens generalizing m with
  | nil =>
      cases h
      rfl
  | cons token tokens ih =>
      rw [interpret] at h
      rw [List.cons_append, interpret]
      split at h
      · exact ih h
      · next hstopped => exact absurd h (hstopped n)

/-- Whatever tokens are interpreted, what has been written stays written, and the log tells which
lines were cut. -/
theorem interpret_uses (hm : m.Bare) (tokens : List String) :
    ∃ stop n bytes taken, interpret m tokens = some (stop, n) ∧ m.Writes bytes n ∧
      m.Reads taken n := by
  rcases interpret_cases hm tokens with ⟨chunks, lines, n, hpasses, hend⟩ |
    ⟨earlier, token, later, chunks, lines, n, stop, s, rfl, hpasses, hstops, hend⟩
  · exact ⟨none, n, chunks.flatten, lines.flatten, hend, hpasses.writes, (hpasses.reads hm).2.2⟩
  · obtain ⟨hbare, hconfig, hreads⟩ := hpasses.reads hm
    obtain ⟨bytes, hwrites⟩ := hstops.writes
    obtain ⟨-, -, taken, htaken⟩ := hstops.bareAfter hbare
    exact ⟨some stop, s, chunks.flatten ++ bytes, lines.flatten ++ taken, hend later,
      hpasses.writes.trans hwrites, hreads.trans hconfig htaken⟩

/-- A session starts with primitives only, at the console and clock that it was given. -/
theorem boot_bare {config : Config} {arguments : List String} {console : Console} {clock : Clock}
    (h : Machine.boot config arguments console clock = .ok m) : m.Bare ∧ m.console = console := by
  obtain ⟨hvalid, hfresh⟩ := boot_eq_ok.mp h
  have hmeets := fresh_meets hvalid arguments console clock
  rw [hfresh] at hmeets
  have hsame := fresh_environment hfresh console clock
  rw [hfresh] at hsame
  exact ⟨hmeets.2, congrArg Machine.console (Except.ok.inj hsame)⟩

/-- A session that cannot start reports why. -/
theorem run_of_error {config : Config} {arguments : List String} {input : Input} {clock : Clock}
    {error : BootError}
    (h : Machine.boot config (programName :: arguments) ⟨input, {}, []⟩ clock = .error error)
    (tokens : List String) :
    run config tokens arguments input clock =
      some ⟨1, [], [], "error: " ++ error.message ++ "\n", 0⟩ := by
  unfold run report
  rw [h]

/-- A session that starts reports how its tokens ended, what they have written and which lines were
cut. -/
theorem run_of_interpret {config : Config} {arguments : List String} {input : Input} {clock : Clock}
    (hboot : Machine.boot config (programName :: arguments) ⟨input, {}, []⟩ clock = .ok m)
    {stop : Option Stop} {bytes : List UInt8} {taken : List (List UInt8)}
    (h : interpret m tokens = some (stop, n)) (hwrites : m.Writes bytes n)
    (hreads : m.Reads taken n) :
    run config tokens arguments input clock =
      some ⟨status stop, bytes, Input.cuts config.inputBuffer taken, diagnostics stop,
        n.clock.waited⟩ := by
  have hconsole := (boot_bare hboot).2
  have hwritten : n.console.output.written.toList = bytes := by
    rw [hwrites, hconsole]
    rfl
  have hlog : n.console.log = Input.cuts config.inputBuffer taken := by
    rw [hreads.log, hconsole, (Live.boot hboot).wellFormed.config_eq]
    rfl
  unfold run report
  rw [hboot]
  simp only [h, Option.map_some, hwritten, hlog]

/-- The lines that a session reads are those at the start of its input, unless the input fails. -/
theorem prefix_of_reads {config : Config} {arguments : List String} {input : Input} {clock : Clock}
    (hboot : Machine.boot config (programName :: arguments) ⟨input, {}, []⟩ clock = .ok m)
    {taken : List (List UInt8)} (hreads : m.Reads taken n) (hfailure : input.failure = none) :
    taken <+: Input.pieces input.pending := by
  have htakes := hreads.input
  rw [(boot_bare hboot).2] at htakes
  exact htakes.isPrefix hfailure

section Run

variable {config : Config} {arguments : List String} {input : Input} {clock : Clock}

/-- A session that starts ends with its last token or with the first one that stops it, whatever
comes after that. -/
theorem run_cases
    (hboot : Machine.boot config (programName :: arguments) ⟨input, {}, []⟩ clock = .ok m)
    (tokens : List String) :
    (∃ chunks lines n, Passes m tokens chunks lines n ∧
      (input.failure = none → lines.flatten <+: Input.pieces input.pending) ∧
      run config tokens arguments input clock =
        some ⟨0, chunks.flatten, Input.cuts config.inputBuffer lines.flatten, "", n.clock.waited⟩) ∨
    ∃ earlier token later chunks lines n status text bytes taken s,
      tokens = earlier ++ token :: later ∧
      Passes m earlier chunks lines n ∧ Stops n token status text s ∧ n.Writes bytes s ∧
      n.Reads taken s ∧
      (input.failure = none → lines.flatten ++ taken <+: Input.pieces input.pending) ∧
      ∀ others, run config (earlier ++ token :: others) arguments input clock =
        some ⟨status, chunks.flatten ++ bytes,
          Input.cuts config.inputBuffer (lines.flatten ++ taken), text, s.clock.waited⟩ := by
  have hbare := (boot_bare hboot).1
  rcases interpret_cases hbare tokens with ⟨chunks, lines, n, hpasses, hend⟩ |
    ⟨earlier, token, later, chunks, lines, n, stop, s, htokens, hpasses, hstops, hend⟩
  · obtain ⟨-, -, hreads⟩ := hpasses.reads hbare
    exact .inl ⟨chunks, lines, n, hpasses, prefix_of_reads hboot hreads,
      run_of_interpret hboot hend hpasses.writes hreads⟩
  · obtain ⟨hlast, hconfig, hreads⟩ := hpasses.reads hbare
    obtain ⟨bytes, hwrites⟩ := hstops.writes
    obtain ⟨-, -, taken, htaken⟩ := hstops.bareAfter hlast
    have hall := hreads.trans hconfig htaken
    exact .inr ⟨earlier, token, later, chunks, lines, n, _, _, bytes, taken, s, htokens, hpasses,
      hstops, hwrites, htaken, prefix_of_reads hboot hall, fun others =>
        run_of_interpret hboot (hend others) (hpasses.writes.trans hwrites) hall⟩

/-- Tokens that are added at the end take back nothing that has been written. -/
theorem run_output_prefix (config : Config) (tokens more arguments : List String) (input : Input)
    (clock : Clock) :
    ∃ less all, run config tokens arguments input clock = some less ∧
      run config (tokens ++ more) arguments input clock = some all ∧
      less.output <+: all.output := by
  cases hboot : Machine.boot config (programName :: arguments) ⟨input, {}, []⟩ clock with
  | error error => exact ⟨_, _, run_of_error hboot tokens, run_of_error hboot _, List.prefix_rfl⟩
  | ok m =>
      have hbare := (boot_bare hboot).1
      rcases interpret_cases hbare tokens with ⟨chunks, lines, n, hpasses, hend⟩ |
        ⟨earlier, token, later, chunks, lines, n, stop, s, rfl, hpasses, hstops, hend⟩
      · obtain ⟨hlast, hconfig, hreads⟩ := hpasses.reads hbare
        obtain ⟨stop, o, bytes, taken, hmore, hwrites, htaken⟩ := interpret_uses hlast more
        exact ⟨_, _, run_of_interpret hboot hend hpasses.writes hreads,
          run_of_interpret hboot ((interpret_append hend more).trans hmore)
            (hpasses.writes.trans hwrites) (hreads.trans hconfig htaken),
          List.prefix_append _ _⟩
      · obtain ⟨stop', o, bytes, taken, hinterpret, hwrites, hreads⟩ :=
          interpret_uses hbare (earlier ++ token :: later)
        have hsame : interpret m (earlier ++ token :: later ++ more) = some (stop', o) := by
          rw [List.append_assoc, List.cons_append, hend, ← hend later, hinterpret]
        exact ⟨_, _, run_of_interpret hboot hinterpret hwrites hreads,
          run_of_interpret hboot hsame hwrites hreads, List.prefix_rfl⟩

variable {read : List String → Except Report Invocation} {words : List String}

/-- A program that is asked to run tokens runs them. -/
theorem start_eq_run (h : read words = .ok ⟨config, .run tokens arguments⟩) :
    start read words input clock = run config tokens arguments input clock := by
  rw [start, h]
  rfl

/-- A program has ended with an exit status, and has written bytes to standard output and a text to
standard error, in which the log may be laid out in any way. -/
def Leaves (outcome : Option Report) (status : Nat) (output : List UInt8)
    (standardError : LogLayout → String) : Prop :=
  ∃ report, outcome = some report ∧ report.status = status ∧ report.output = output ∧
    report.standardError = standardError

/-- A program that is asked to run tokens, however it reads its words, reports how they went. If the
session cannot start, only that is reported. Otherwise the tokens are carried out in order, up to
the end or to the first that stops the session. The output is what they have written, that token
included. On standard error the log tells of each line they have read that does not fit the input
buffer, and the text that the stop calls for comes after it. No other tokens behind that one make
any difference. Adding tokens adds to the output. -/
theorem start_reports (hread : read words = .ok ⟨config, .run tokens arguments⟩) (input : Input)
    (clock : Clock) :
    (∀ error, Machine.boot config (programName :: arguments) ⟨input, {}, []⟩ clock = .error error →
      Leaves (start read words input clock) 1 [] fun _ => "error: " ++ error.message ++ "\n") ∧
    (∀ m, Machine.boot config (programName :: arguments) ⟨input, {}, []⟩ clock = .ok m →
      (∃ chunks lines n, Passes m tokens chunks lines n ∧
        (input.failure = none → lines.flatten <+: Input.pieces input.pending) ∧
        Leaves (start read words input clock) 0 chunks.flatten fun layout =>
          layout.render (Input.cuts config.inputBuffer lines.flatten)) ∨
      ∃ earlier token later chunks lines n status text bytes taken s,
        tokens = earlier ++ token :: later ∧
        Passes m earlier chunks lines n ∧ Stops n token status text s ∧ n.Writes bytes s ∧
        n.Reads taken s ∧
        (input.failure = none → lines.flatten ++ taken <+: Input.pieces input.pending) ∧
        ∀ others words', read words' = .ok ⟨config, .run (earlier ++ token :: others) arguments⟩ →
          Leaves (start read words' input clock) status (chunks.flatten ++ bytes) fun layout =>
            layout.render (Input.cuts config.inputBuffer (lines.flatten ++ taken)) ++ text) ∧
    (∀ m token n status text s, Proceeds m token n → ¬ Stops m token status text s) ∧
    ∀ more words', read words' = .ok ⟨config, .run (tokens ++ more) arguments⟩ →
      ∃ less all, start read words input clock = some less ∧
        start read words' input clock = some all ∧ less.output <+: all.output := by
  rw [start_eq_run hread]
  refine ⟨fun error h => ?_, fun m hboot => ?_, fun _ _ _ _ _ _ h => h.not_stops,
    fun more words' hmore => ?_⟩
  · exact ⟨_, run_of_error h tokens, rfl, rfl, funext fun _ => String.empty_append⟩
  · rcases run_cases hboot tokens with ⟨chunks, lines, n, hpasses, hlines, hrun⟩ |
      ⟨earlier, token, later, chunks, lines, n, status, text, bytes, taken, s, htokens, hpasses,
        hstops, hwrites, htaken, hlines, hrun⟩
    · exact .inl ⟨chunks, lines, n, hpasses, hlines, _, hrun, rfl, rfl,
        funext fun _ => String.append_empty⟩
    · exact .inr ⟨earlier, token, later, chunks, lines, n, status, text, bytes, taken, s, htokens,
        hpasses, hstops, hwrites, htaken, hlines, fun others words' hothers =>
          ⟨_, (start_eq_run hothers).trans (hrun others), rfl, rfl, rfl⟩⟩
  · rw [start_eq_run hmore]
    exact run_output_prefix config tokens more arguments input clock

/-- Where all entries are filtered out, the log is silent. -/
theorem render_silent (log : List LogEntry) : LogLayout.render (fun _ _ => "") log = "" := by
  have hsilent : ∀ count, String.join (List.replicate count "") = "" := by
    intro count
    induction count with
    | zero => rfl
    | succ count ih => simpa [List.replicate_succ] using ih
  rw [LogLayout.render, List.mapIdx_eq_replicate_iff.mpr fun _ _ => rfl, hsilent]

/-- A command line is stopped by a word that finds the stack empty, after a byte has been written
and a line has been cut. Another one asks for a stack without room. -/
theorem start_reports_fault :
    let tokens := ["65", "emit", "refill", "drop", "drop", "66"]
    let input : Input := { pending := Name.bytes "abcdefgh\n" }
    let fault := "fault: data stack underflow: need 1, have 0\n"
    parse (["--input-buffer", "4", "run"] ++ tokens) = .ok ⟨{ inputBuffer := 4 }, .run tokens []⟩ ∧
    (∃ m earlier token later chunks lines n bytes taken s,
      Machine.boot { inputBuffer := 4 } [programName] ⟨input, {}, []⟩ {} = .ok m ∧
      tokens = earlier ++ token :: later ∧ Passes m earlier chunks lines n ∧
      Stops n token 3 fault s ∧ n.Writes bytes s ∧ n.Reads taken s ∧
      chunks.flatten ++ bytes = [65] ∧
      ∀ others words,
        parse words = .ok ⟨{ inputBuffer := 4 }, .run (earlier ++ token :: others) []⟩ →
        Leaves (start parse words input {}) 3 [65] fun layout =>
          layout.render [.truncated 8 4] ++ fault) ∧
    Leaves (start parse ["--data-stack", "0", "run", "1"] input {}) 1 [] fun _ =>
      "error: invalid configuration: data stack capacity must be greater than zero\n" := by
  intro tokens input fault
  have hchecks : ((start parse (["--input-buffer", "4", "run"] ++ tokens) input {}).any fun r =>
      r.status == 3 && r.output == [65] && r.log == [.truncated 8 4] &&
        r.diagnostics == fault) = true := by
    decide +kernel
  obtain ⟨r, hstart, hchecks⟩ := (Option.any_eq_true _ _).mp hchecks
  simp only [Bool.and_eq_true, beq_iff_eq] at hchecks
  obtain ⟨⟨⟨hstatus, houtput⟩, hlog⟩, hdiagnostics⟩ := hchecks
  have hok : (Machine.boot { inputBuffer := 4 } [programName] ⟨input, {}, []⟩ {}).isOk = true := by
    decide +kernel
  obtain ⟨m, hboot⟩ := boot_isOk hok
  have hparse : parse (["--input-buffer", "4", "run"] ++ tokens) =
      .ok ⟨{ inputBuffer := 4 }, .run tokens []⟩ := rfl
  refine ⟨hparse, ?_, ?_⟩
  · rcases (start_reports hparse input {}).2.1 m hboot with ⟨chunks, lines, n, -, -, hleaves⟩ |
      ⟨earlier, token, later, chunks, lines, n, status, text, bytes, taken, s, htokens, hpasses,
        hstops, hwrites, hreads, -, hleaves⟩
    · obtain ⟨report, hreport, hzero, -⟩ := hleaves
      cases hstart.symm.trans hreport
      omega
    · obtain ⟨report, hreport, rfl, hwritten, herror⟩ :=
        hleaves later _ (hparse.trans (by rw [htokens]))
      cases hstart.symm.trans hreport
      have hshown : r.standardError = fun layout => layout.render [.truncated 8 4] ++ fault := by
        funext layout
        rw [Report.standardError, hlog, hdiagnostics]
      have htext : text = fault := by
        have hsilent := congrFun (herror.symm.trans hshown) fun _ _ => ""
        rwa [render_silent, render_silent, String.empty_append, String.empty_append] at hsilent
      rw [hstatus, htext] at hstops
      rw [hstatus, ← herror, hshown, ← hwritten, houtput] at hleaves
      exact ⟨m, earlier, token, later, chunks, lines, n, bytes, taken, s, hboot, htokens, hpasses,
        hstops, hwrites, hreads, hwritten.symm.trans houtput, hleaves⟩
  · have hparse : parse ["--data-stack", "0", "run", "1"] =
        .ok ⟨{ dataStack := 0 }, .run ["1"] []⟩ := rfl
    exact (start_reports hparse input {}).1 (.config (.zeroCapacity .dataStack)) rfl

/-- No token stops the session, and yet standard error is not empty, as the log tells of the line
that was cut. And a word that is read as an option is no token, although as one it would stop the
session. -/
theorem standardError_of_cut_line :
    let cut : Input := { pending := Name.bytes "abcdefgh\n" }
    let empty : Input := { pending := [] }
    (∃ m n report, Machine.boot { inputBuffer := 4 } [programName] ⟨cut, {}, []⟩ {} = .ok m ∧
      Proceeds m "REFILL" n ∧
      start parse ["--input-buffer", "4", "run", "REFILL"] cut {} = some report ∧
      report.status = 0 ∧
      report.standardError .warnings = " WARN input line truncated len=8 capacity=4\n") ∧
    ∃ m report, Machine.boot {} [programName] ⟨empty, {}, []⟩ {} = .ok m ∧
      Stops m "--data-stack" 1 "error: unknown word '--data-stack'\n" m ∧
      start parse ["run", "--data-stack", "2", "1", "2", "3"] empty {} = some report ∧
      report.status = 3 ∧
      report.standardError .warnings = "fault: data stack overflow (capacity 2)\n" := by
  intro cut empty
  have hcut : ((Machine.boot { inputBuffer := 4 } [programName] ⟨cut, {}, []⟩ {}).toOption.any
      fun m => m.find? "REFILL" == some Primitive.refill.token &&
        ((Operation.ask (.execute (UInt64.ofNat Primitive.refill.token))).perform 0 m).endsWith
          none fun _ => true) = true := by
    decide +kernel
  have hlogged : ((start parse ["--input-buffer", "4", "run", "REFILL"] cut {}).any fun r =>
      r.status == 0 &&
        r.standardError .warnings == " WARN input line truncated len=8 capacity=4\n") = true := by
    decide +kernel
  have hunknown : ((Machine.boot {} [programName] ⟨empty, {}, []⟩ {}).toOption.any fun m =>
      m.find? "--data-stack" == none) = true := by
    decide +kernel
  have hoption : ((start parse ["run", "--data-stack", "2", "1", "2", "3"] empty {}).any fun r =>
      r.status == 3 &&
        r.standardError .warnings == "fault: data stack overflow (capacity 2)\n") = true := by
    decide +kernel
  obtain ⟨m, hboot, hchecks⟩ := exists_ok_of_any hcut
  obtain ⟨hfind, hrefill⟩ := (Bool.and_eq_true _ _).mp hchecks
  obtain ⟨_, n, hperform, -⟩ := Run.exists_done hrefill
  obtain ⟨r, hstart, hchecks⟩ := (Option.any_eq_true _ _).mp hlogged
  simp only [Bool.and_eq_true, beq_iff_eq] at hchecks
  obtain ⟨b, hbooted, hnone⟩ := exists_ok_of_any hunknown
  obtain ⟨q, hstarted, hfault⟩ := (Option.any_eq_true _ _).mp hoption
  simp only [Bool.and_eq_true, beq_iff_eq] at hfault
  exact ⟨⟨m, n, r, hboot, .execute (by decide +kernel) (beq_iff_eq.mp hfind) hperform, hstart,
    hchecks⟩, b, q, hbooted, .unknown (by decide +kernel) (beq_iff_eq.mp hnone), hstarted, hfault⟩

end Run

end CommandLine

end ThreadedForth
