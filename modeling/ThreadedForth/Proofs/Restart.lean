import ThreadedForth.Proofs.PaddedSession
import ThreadedForth.Proofs.RawSession

/-!
# Starting a session again

A reset clears the areas of the machine one by one and lays them out again. In a live session it
cannot fail, and whatever the session did before, it leads back to the machine at the start, except
for what lies outside the machine: the console, with the input still to be read and the output
already accepted, and the clock. From then on the session is one that has just been started with the
input that was left.
-/

namespace ThreadedForth

/-- A machine whose console has accepted bytes and whose log has taken entries before. -/
def Machine.afterOutput (bytes : Array UInt8) (entries : List LogEntry) (m : Machine) : Machine :=
  { m with console := { m.console with
      output := { m.console.output with written := bytes ++ m.console.output.written }
      log := entries ++ m.console.log } }

/-- The padding that consists of earlier output and log entries alone, with clocks that agree. -/
def Padding.earlier (bytes : Array UInt8) (entries : List LogEntry) : Padding :=
  { written := bytes, logged := entries, timed := True }

namespace Padding

variable {bytes : Array UInt8} {entries : List LogEntry}

/-- Earlier output is no excuse for anything. -/
theorem earlier_unexcused (fault : Fault) :
    ¬ (earlier bytes entries).excuse.first fault ∧
    ¬ (earlier bytes entries).excuse.second fault := by
  refine ⟨fun h => ?_, fun h => h.1 rfl⟩
  obtain hbelow | h := h
  · exact hbelow rfl
  · split at h
    · exact h rfl
    · exact h rfl
    · exact h rfl
    · exact h

/-- A machine that differs by earlier output gives the same answers to everything, host words
included. -/
theorem earlier_bisimulation (bytes : Array UInt8) (entries : List LogEntry) :
    Bisimulation (earlier bytes entries).excuse (earlier bytes entries).Permits
      (Machine.Padded (earlier bytes entries)) where
  toSimulation := (earlier bytes entries).simulation
  unexcused := earlier_unexcused
  permitted _ := ⟨fun _ => rfl, fun _ => trivial⟩
  request host budget h hruns := h.perform rfl hruns host budget
  define name body h := h.define name (.host body) false

/-- Earlier output is all in which the two machines differ. -/
theorem eq_afterOutput {m n : Machine} (h : m.Padded (earlier bytes entries) n) :
    n = m.afterOutput bytes entries := by
  obtain ⟨hdata, hreturns, hclock⟩ := h
  obtain rfl := Stack.eq_of_cells (hdata.cells.trans (List.append_nil _)) hdata.room
  obtain rfl := Stack.eq_of_cells (hreturns.cells.trans (List.append_nil _)) hreturns.room
  obtain rfl := hclock trivial
  rfl

end Padding

namespace Machine

variable {config : Config} {arguments : List String} {m : Machine}

/-- A machine that has accepted output before differs by that alone. -/
theorem padded_afterOutput (m : Machine) (bytes : Array UInt8) (entries : List LogEntry) :
    m.Padded (.earlier bytes entries) (m.afterOutput bytes entries) :=
  ⟨⟨(List.append_nil _).symm, rfl⟩, ⟨(List.append_nil _).symm, rfl⟩, fun _ => rfl⟩

/-- Sessions of which the second has accepted output before match throughout. -/
theorem sessions_afterOutput (bytes : Array UInt8) (entries : List LogEntry) (clock : Nat → Clock)
    (operations : List (Operation × Nat)) :
    List.Forall₂ (Exchange.Matches fun s t => t = s.afterOutput bytes entries)
      (session clock operations m) (session clock operations (m.afterOutput bytes entries)) := by
  have sim := Padding.earlier_bisimulation bytes entries
  have htick : ∀ turn (s t : Machine), s.Padded (.earlier bytes entries) t →
      Padded (.earlier bytes entries) { s with clock := clock turn }
        { t with clock := clock turn } := by
    rintro turn s _ ⟨hdata, hreturns, -⟩
    exact ⟨hdata, hreturns, fun _ => rfl⟩
  refine List.Forall₂.imp (Exchange.Matches.imp fun s t => Padding.eq_afterOutput) ?_
  refine session_matches (fun fault => (sim.unexcused fault).2) operations
    (fun x _ s t hst _ => sim.operation x.2 x.1 hst) htick (m.padded_afterOutput bytes entries)
      fun x _ =>
      ⟨?_, fun p _ => sim.permitted p⟩
  exact Run.not_faults (fun fault => (sim.unexcused fault).1) x.run

/-- A reset restores the start of the session. In every live session it succeeds, by raw accesses
too, and gives the machine that the session would start with at any other console and clock, except
that it keeps its own. What follows is answered like in a session that has just been started, with
the input that is left and a sink and a log to which nothing has been written yet: the machines
never differ but in the output and the log entries from before. -/
theorem Live.reset_restarts (live : Live config arguments m) :
    (∀ console clock, ∃ booted, Machine.boot config arguments console clock = .ok booted ∧
      m.reset = .ok { booted with console := m.console, clock := m.clock } ∧
      Raw.reset.run m = .done () { booted with console := m.console, clock := m.clock }) ∧
    ∃ started restarted,
      Machine.boot config arguments
        ⟨m.console.input, { m.console.output with written := #[] }, []⟩ m.clock =
        .ok started ∧
      m.reset = .ok restarted ∧
      ∀ (clock : Nat → Clock) (operations : List (Operation × Nat)),
        List.Forall₂ (Exchange.Matches fun s t =>
          t = s.afterOutput m.console.output.written m.console.log)
          (session clock operations started) (session clock operations restarted) := by
  have hwell := live.wellFormed
  obtain ⟨n, hn⟩ := live.fresh_eq_ok m.console m.clock
  have hreset : m.reset = .ok n := by rw [reset, hwell.config_eq, hwell.arguments_eq, hn]
  have hkept : { n with console := m.console, clock := m.clock } = n :=
    Except.ok.inj ((fresh_environment hn m.console m.clock).symm.trans hn)
  have hboot : ∀ console clock,
      Machine.boot config arguments console clock =
        .ok { n with console := console, clock := clock } :=
    fun console clock => boot_eq_ok.mpr ⟨hwell.valid, fresh_environment hn console clock⟩
  refine ⟨fun console clock => ⟨_, hboot console clock, ?_, ?_⟩, _, n, hboot _ _, hreset, ?_⟩
  · rw [hreset, hkept]
  · rw [Raw.reset_run hwell hn, hreset, hkept]
    rfl
  · intro clock operations
    have hsessions := sessions_afterOutput m.console.output.written m.console.log clock operations
      (m := { n with
        console := ⟨m.console.input, { m.console.output with written := #[] }, []⟩,
        clock := m.clock })
    rwa [afterOutput, Array.append_empty, List.append_nil, hkept] at hsessions

/-- A session that has hidden a primitive, written over the system area, written a line and read one
that is too long is started again. -/
theorem Live.reset_restarts_dirty :
    ∃ m started restarted, Live { inputBuffer := 1 } [] m ∧
      (m.dictionary.get? Primitive.dup.token).any (·.hidden) = true ∧ m.isCompiling = true ∧
      m.console.output.written = #[newline] ∧ m.console.log = [.truncated 2 1] ∧
      Machine.boot { inputBuffer := 1 } []
        ⟨m.console.input, { m.console.output with written := #[] }, []⟩ m.clock =
        .ok started ∧
      m.reset = .ok restarted ∧ Raw.reset.run m = .done () restarted ∧
      (restarted.dictionary.get? Primitive.dup.token).any (·.hidden) = false ∧
      restarted.isCompiling = false ∧ ∀ (clock : Nat → Clock) (operations : List (Operation × Nat)),
        List.Forall₂ (Exchange.Matches fun s t => t = s.afterOutput #[newline] [.truncated 2 1])
          (session clock operations started) (session clock operations restarted) := by
  let execute (p : Primitive) : Operation := .ask (.execute (UInt64.ofNat p.token))
  have hsession :
      ((Machine.boot { inputBuffer := 1 } [] ⟨{ pending := [97, 98, 10] }, {}, []⟩ {}).toOption.any
        fun b =>
      ((Operation.ask (.setHidden (UInt64.ofNat Primitive.dup.token) true)).perform 0 b).endsWith
        none fun s =>
        ((Operation.ask (.storeCell 8 7)).perform 0 s).endsWith none fun t =>
          ((execute .cr).perform 0 t).endsWith none fun u =>
          ((execute .refill).perform 0 u).endsWith none fun m =>
            (m.dictionary.get? Primitive.dup.token).any (·.hidden) && m.isCompiling &&
              m.console.output.written == #[newline] && m.console.log == [.truncated 2 1] &&
              m.reset.toOption.any fun r =>
                !(r.dictionary.get? Primitive.dup.token).any (·.hidden) && !r.isCompiling) =
                true := by decide +kernel
  obtain ⟨b, hboot, hdirtied⟩ := exists_ok_of_any hsession
  obtain ⟨_, s, hfirst, hdirtied⟩ := Run.exists_done hdirtied
  obtain ⟨_, t, hsecond, hdirtied⟩ := Run.exists_done hdirtied
  obtain ⟨_, u, hthird, hdirtied⟩ := Run.exists_done hdirtied
  obtain ⟨_, m, hfourth, hchecks⟩ := Run.exists_done hdirtied
  simp only [Bool.and_eq_true, beq_iff_eq] at hchecks
  obtain ⟨⟨⟨⟨hhidden, hcompiling⟩, hwritten⟩, hlog⟩, hreset⟩ := hchecks
  obtain ⟨r, hreset, hchecks⟩ := exists_ok_of_any hreset
  simp only [Bool.and_eq_true, Bool.not_eq_true'] at hchecks
  obtain ⟨hshown, hinterpreting⟩ := hchecks
  have live : Live { inputBuffer := 1 } [] m :=
    ((((Live.boot hboot).perform _ 0 hfirst).perform _ 0 hsecond).perform _ 0 hthird).perform _ 0
      hfourth
  obtain ⟨heverywhere, started, restarted, hstarted, hrestarted, hsessions⟩ := live.reset_restarts
  obtain ⟨booted, -, hok, hraw⟩ := heverywhere m.console m.clock
  obtain rfl := Except.ok.inj (hreset.symm.trans hrestarted)
  refine ⟨m, started, r, live, hhidden, hcompiling, hwritten, hlog, hstarted, hreset, ?_, hshown,
    hinterpreting, ?_⟩
  · rw [hraw, Except.ok.inj (hok.symm.trans hreset)]
  · rwa [hwritten, hlog] at hsessions

end Machine

end ThreadedForth
