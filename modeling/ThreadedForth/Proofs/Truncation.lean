import ThreadedForth.Proofs.Bare
import ThreadedForth.Proofs.Footprint
import ThreadedForth.Proofs.Refusal

/-!
# Lines in the log

A line that does not fit the input buffer is cut, and the log takes an entry that gives its length.
Nothing but reading a line writes to the log. So whatever tokens are executed on the way from one
machine to another, the entries that have come in tell which of the lines read on that way were too
long, in the order of the lines.
-/

namespace ThreadedForth

namespace Input

/-- Lines are taken from an input one after the other. An attempt that fails takes no line, and the
bytes that it has read are lost. -/
inductive Takes : Input → List (List UInt8) → Input → Prop where
  | nil (input : Input) : Takes input [] input
  | line {input next last : Input} {piece : List UInt8} {lines : List (List UInt8)} :
      input.readLine = (.ok piece, next) → piece ≠ [] → Takes next lines last →
      Takes input (piece :: lines) last
  | lost {input next last : Input} {message : String} {lines : List (List UInt8)} :
      input.readLine = (.error message, next) → Takes next lines last → Takes input lines last

variable {input next last : Input} {lines more : List (List UInt8)}

/-- The lines of two stretches of reading make up those of both. -/
theorem Takes.trans (h : Takes input lines next) (hmore : Takes next more last) :
    Takes input (lines ++ more) last := by
  induction h with
  | nil => exact hmore
  | line hread hpiece _ ih => exact .line hread hpiece (ih hmore)
  | lost hread _ ih => exact .lost hread (ih hmore)

/-- From an input that does not fail, lines are taken from its first piece on. -/
theorem Takes.isPrefix (h : Takes input lines last) (hfailure : input.failure = none) :
    lines <+: pieces input.pending := by
  induction h with
  | nil => exact List.nil_prefix
  | @line input next _ piece _ hread hpiece _ ih =>
      obtain ⟨rest, hrest, htail⟩ := readLine_eq input.pending
      have hinput : input = ⟨input.pending, none⟩ := by rw [← hfailure]
      rw [hinput, hrest] at hread
      cases hread
      rcases hpieces : pieces input.pending with _ | ⟨first, others⟩
      · exact absurd (by rw [hpieces]; rfl) hpiece
      · rw [hpieces] at htail
        obtain rfl : pieces rest = others := htail
        exact (List.prefix_cons_inj _).mpr (ih rfl)
  | @lost input _ _ _ _ hread _ _ =>
      obtain ⟨rest, hrest, -⟩ := readLine_eq input.pending
      have hinput : input = ⟨input.pending, none⟩ := by rw [← hfailure]
      rw [hinput, hrest] at hread
      cases hread

/-- What the log takes of lines: an entry for each that does not fit an input buffer of a given
capacity. -/
def cuts (capacity : Nat) (lines : List (List UInt8)) : List LogEntry :=
  lines.filterMap fun piece => LogEntry.ofLine? capacity (trimLine piece)

/-- The log takes at most one entry of a line. -/
theorem cuts_singleton (capacity : Nat) (piece : List UInt8) :
    cuts capacity [piece] = (LogEntry.ofLine? capacity (trimLine piece)).toList := by
  unfold cuts
  cases h : LogEntry.ofLine? capacity (trimLine piece) <;> simp [h]

/-- The log takes the entries of all lines in order. -/
theorem cuts_append (capacity : Nat) (lines more : List (List UInt8)) :
    cuts capacity (lines ++ more) = cuts capacity lines ++ cuts capacity more :=
  List.filterMap_append

end Input

namespace Machine

/-- A machine that has read lines since it was another one, and has noted in the log which of them
were too long. -/
structure Reads (m : Machine) (lines : List (List UInt8)) (n : Machine) : Prop where
  input : m.console.input.Takes lines n.console.input
  log : n.console.log = m.console.log ++ Input.cuts m.config.inputBuffer lines

variable {m n o : Machine} {lines more : List (List UInt8)}

/-- Where neither input nor log have changed, no line has been read. -/
theorem Reads.of_eq (hinput : n.console.input = m.console.input)
    (hlog : n.console.log = m.console.log) : m.Reads [] n :=
  ⟨hinput ▸ .nil _, hlog.trans (List.append_nil _).symm⟩

/-- Lines that are read first and lines that are read then are read together. -/
theorem Reads.trans (hconfig : n.config = m.config) (hmn : m.Reads lines n) (hno : n.Reads more o) :
    m.Reads (lines ++ more) o := by
  refine ⟨hmn.input.trans hno.input, ?_⟩
  rw [hno.log, hmn.log, hconfig, Input.cuts_append, List.append_assoc]

/-- Whatever becomes of a refill, the lines it has read are in the log if they are too long. -/
theorem refillWord_reads (m : Machine) : ∃ lines, m.Reads lines m.refillWord.machine := by
  by_cases hroom : m.data.room = 0
  · rw [refillWord_of_full hroom]
    exact ⟨[], .of_eq rfl rfl⟩
  cases hflush : m.console.output.flushFailure with
  | some message =>
      rw [refillWord_of_unflushed hroom hflush]
      exact ⟨[], .of_eq rfl rfl⟩
  | none =>
      rcases hread : m.console.input.readLine with ⟨message | line, input⟩
      · rw [refillWord_of_broken hroom hflush hread]
        exact ⟨[], .lost hread (.nil _), (List.append_nil _).symm⟩
      · by_cases hline : line = []
        · subst hline
          rw [refillWord_of_end hroom hflush hread]
          exact ⟨[], .of_eq (Input.eq_of_readLine_ok hread).symm rfl⟩
        · obtain ⟨n, hrefill, hinput, -, -, -, hlog⟩ := refillWord_of_piece hroom hflush hread hline
          rw [hrefill]
          exact ⟨[line], .line hread hline (hinput ▸ .nil _),
            hlog.trans (by rw [Input.cuts_singleton])⟩

end Machine

/-- Whatever becomes of a primitive, the lines it has read are in the log if they are too long. -/
theorem Primitive.effect_reads {p : Primitive} {effect : Effect} (h : p.effect? = some effect)
    (m : Machine) : ∃ lines, m.Reads lines (effect m).machine := by
  by_cases hp : p = .refill
  · subst hp
    cases h
    exact m.refillWord_reads
  · rcases houtcome : effect m with ⟨_, n⟩ | ⟨reason, n⟩
    · obtain ⟨-, hinput, hlog⟩ := (p.effect_alters h houtcome).input_eq hp
      exact ⟨[], .of_eq hinput hlog⟩
    · obtain ⟨output, -, rfl⟩ := p.effect_outputs h hp m reason n houtcome
      exact ⟨[], .of_eq rfl rfl⟩

namespace Machine

variable {m n o : Machine} {host : HostRunner}

/-- A machine without definitions that has at most read lines since it was another one, with all
that this says of the log. -/
def BareAfter (m n : Machine) : Prop := n.Bare ∧ n.config = m.config ∧ ∃ lines, m.Reads lines n

/-- A machine that has read lines may go on from there with further lines. -/
theorem BareAfter.step (h : m.BareAfter n) (hcontinues : n.Continues o)
    (hreads : ∃ lines, n.Reads lines o) : m.BareAfter o := by
  obtain ⟨hbare, hconfig, lines, hlines⟩ := h
  obtain ⟨more, hmore⟩ := hreads
  exact ⟨hbare.continues hcontinues, hcontinues.config.trans hconfig, lines ++ more,
    hlines.trans hconfig hmore⟩

/-- Where all definitions are primitives, code reads lines only through the word for it. -/
theorem bareAfter_invariant (m : Machine) (host : HostRunner) :
    CodeInvariant host (fun _ => True) m.BareAfter where
  hosted {_ token d _} h hd haction := by
    obtain ⟨p, hp⟩ := h.1 token d hd
    rw [hp] at haction
    cases haction
  refuses h _ := ⟨h, trivial⟩
  effect {n _ _} h heffect := Outcome.meets_of_machine
    (h.step (Primitive.effect_steady heffect n).machine (Primitive.effect_reads heffect n))
  call {_ token d} h hd haction := by
    obtain ⟨p, hp⟩ := h.1 token d hd
    rw [hp] at haction
    cases haction
  take h hcells := h.step (continues_of_cells hcells) ⟨[], .of_eq rfl rfl⟩
  enter _ h := h.step (.free _ _ _ _ _) ⟨[], .of_eq rfl rfl⟩
  move _ h := h.step (.free _ _ _ _ _) ⟨[], .of_eq rfl rfl⟩

/-- Where all definitions are primitives, the lines that the execution of a token has read are in
the log if they are too long. -/
theorem Bare.execute_bareAfter (h : m.Bare) {budget : Nat} {token : Cell} {outcome : Outcome Unit}
    (houtcome : m.execute host budget token = some outcome) : m.BareAfter outcome.machine :=
  ((bareAfter_invariant m host).execute budget token
    ⟨h, rfl, [], .of_eq rfl rfl⟩ outcome houtcome).machine

end Machine

end ThreadedForth
