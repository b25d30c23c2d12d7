import Mathlib.Data.List.TakeDrop
import Mathlib.Data.List.TakeWhile
import ThreadedForth.Proofs.Live
import ThreadedForth.Proofs.Threading

/-!
# Reading lines

The input is cut into pieces after each newline, the last piece possibly without one. Each refill
takes one piece, in order, and once there is none left it takes nothing. So whatever else is done
between the refills, the number of those that have succeeded tells which piece comes next.
-/

namespace ThreadedForth

namespace Input

/-- The pieces of the input: it is cut after each newline. -/
def pieces : List UInt8 → List (List UInt8)
  | [] => []
  | b :: rest =>
      if b = newline then [b] :: pieces rest
      else
        match pieces rest with
        | [] => [[b]]
        | piece :: more => (b :: piece) :: more

/-- What it means to cut bytes after each newline: the pieces make up the bytes, none is empty,
newlines stand only at the end of a piece, and only the last piece may lack one. -/
structure Cut (bytes : List UInt8) (cut : List (List UInt8)) : Prop where
  flatten : cut.flatten = bytes
  nonempty : ∀ piece ∈ cut, piece ≠ []
  inside : ∀ piece ∈ cut, newline ∉ piece.dropLast
  terminated : ∀ piece ∈ cut.dropLast, piece.getLast? = some newline

/-- What is left of a piece as a line. The newline that ends it is dropped, and with it a carriage
return directly before it. -/
inductive Trims : List UInt8 → List UInt8 → Prop where
  | both (line : List UInt8) : Trims (line ++ [carriageReturn, newline]) line
  | newline (line : List UInt8) :
      line.getLast? ≠ some carriageReturn → Trims (line ++ [ThreadedForth.newline]) line
  | unterminated (line : List UInt8) : line.getLast? ≠ some ThreadedForth.newline → Trims line line

/-- A line is what its piece is trimmed to. -/
theorem trims_trimLine (piece : List UInt8) : Trims piece (trimLine piece) := by
  obtain ⟨reversed, rfl⟩ : ∃ reversed, piece = List.reverse reversed := ⟨piece.reverse, by simp⟩
  unfold trimLine
  rw [List.reverse_reverse]
  rcases reversed with _ | ⟨mark, before⟩
  · exact .unterminated [] (by simp)
  · dsimp only
    split
    · next hmark =>
        subst hmark
        rcases before with _ | ⟨last, kept⟩
        · exact .newline [] (by simp)
        · dsimp only
          split
          · next hlast =>
              subst hlast
              simpa using Trims.both kept.reverse
          · next hlast =>
              simpa using Trims.newline (last :: kept).reverse (by simpa using hlast)
    · next hmark => exact .unterminated _ (by simpa using hmark)

/-- A piece is trimmed to one line only. -/
theorem Trims.eq_trimLine {piece line : List UInt8} (h : Trims piece line) :
    line = trimLine piece := by
  cases h with
  | both => simp [trimLine]
  | newline _ hlast =>
      obtain ⟨reversed, rfl⟩ : ∃ reversed, line = List.reverse reversed := ⟨line.reverse, by simp⟩
      rcases reversed with _ | ⟨last, kept⟩
      · rfl
      · have hne : last ≠ carriageReturn := by simpa using hlast
        simp [trimLine, hne]
  | unterminated _ hlast =>
      obtain ⟨reversed, rfl⟩ : ∃ reversed, piece = List.reverse reversed := ⟨piece.reverse, by simp⟩
      rcases reversed with _ | ⟨last, kept⟩
      · rfl
      · have hne : last ≠ ThreadedForth.newline := by simpa using hlast
        simp [trimLine, hne]

/-- The first of the pieces of bytes that start with a line is that line. -/
theorem pieces_append {line : List UInt8} (h : newline ∉ line) (rest : List UInt8) :
    pieces (line ++ newline :: rest) = (line ++ [newline]) :: pieces rest := by
  induction line with
  | nil => simp [pieces]
  | cons b line ih =>
      simp only [List.mem_cons, not_or] at h
      obtain ⟨hb, hline⟩ := h
      simp [pieces, ih hline, Ne.symm hb]

/-- Bytes without a newline are one piece. -/
theorem pieces_unterminated {line : List UInt8} (h : newline ∉ line) (hne : line ≠ []) :
    pieces line = [line] := by
  induction line with
  | nil => exact absurd rfl hne
  | cons b line ih =>
      simp only [List.mem_cons, not_or] at h
      obtain ⟨hb, hline⟩ := h
      rcases line with _ | ⟨c, line⟩
      · simp [pieces, Ne.symm hb]
      · rw [pieces, if_neg (Ne.symm hb), ih hline (List.cons_ne_nil _ _)]

/-- The pieces are the input cut after each newline. -/
theorem cut_pieces (bytes : List UInt8) : Cut bytes (pieces bytes) := by
  fun_induction pieces bytes with
  | case1 => exact ⟨rfl, by simp, by simp, by simp⟩
  | case2 rest ih =>
      obtain ⟨hflatten, hnonempty, hinside, hterminated⟩ := ih
      refine ⟨by simp [hflatten], by simpa using hnonempty, by simpa using hinside, ?_⟩
      intro piece hpiece
      rcases hmore : pieces rest with _ | ⟨next, more⟩
      · simp [hmore] at hpiece
      · rw [hmore] at hpiece hterminated
        rcases List.mem_cons.mp hpiece with rfl | hpiece
        · rfl
        · exact hterminated piece hpiece
  | case3 b rest hb hmore ih =>
      rw [hmore] at ih
      have hrest : rest = [] := ih.flatten.symm
      exact ⟨by simp [hrest], by simp, by simp, by simp⟩
  | case4 b rest hb piece more hmore ih =>
      rw [hmore] at ih
      obtain ⟨hflatten, hnonempty, hinside, hterminated⟩ := ih
      obtain ⟨hpiece, hnonempty⟩ := List.forall_mem_cons.mp hnonempty
      obtain ⟨hfirst, hinside⟩ := List.forall_mem_cons.mp hinside
      refine ⟨by simp [← hflatten], by simpa using hnonempty, ?_, ?_⟩
      · refine List.forall_mem_cons.mpr ⟨?_, hinside⟩
        rw [List.dropLast_cons_of_ne_nil hpiece]
        simp [Ne.symm hb, hfirst]
      · rcases more with _ | ⟨next, more⟩
        · simp
        · obtain ⟨hlast, hterminated⟩ := List.forall_mem_cons.mp hterminated
          refine List.forall_mem_cons.mpr ⟨?_, hterminated⟩
          rw [List.getLast?_cons, hlast]
          rfl

/-- A line that is read is what the input starts with. -/
theorem eq_of_readLine_ok {input next : Input} {line : List UInt8}
    (h : input.readLine = (.ok line, next)) :
    input = { next with pending := line ++ next.pending } := by
  have hall : input.pending.takeWhile (· != newline) ++ input.pending.dropWhile (· != newline) =
      input.pending :=
    List.takeWhile_append_dropWhile
  unfold readLine at h
  rw [List.span_eq_takeWhile_dropWhile] at h
  dsimp only at h
  split at h
  · next mark rest hrest =>
      cases h
      rw [hrest] at hall
      simp [hall]
  · next hrest =>
      split at h <;> cases h
      rw [hrest] at hall
      simp [hall]

/-- An input that fails has lost all that was pending. -/
theorem eq_of_readLine_error {input next : Input} {message : String}
    (h : input.readLine = (.error message, next)) : next = { input with pending := [] } := by
  unfold readLine at h
  dsimp only at h
  split at h
  · cases h
  · split at h <;> cases h
    rfl

/-- A line that ends with a newline is read up to and including it. -/
theorem readLine_terminated {line : List UInt8} (h : newline ∉ line) (rest : List UInt8) :
    readLine ⟨line ++ newline :: rest, none⟩ = (.ok (line ++ [newline]), ⟨rest, none⟩) := by
  have hall : ∀ b ∈ line, (b != newline) = true :=
    fun b hb => bne_iff_ne.mpr fun heq => h (heq ▸ hb)
  simp only [readLine, List.span_eq_takeWhile_dropWhile, List.takeWhile_append_of_pos hall,
    List.dropWhile_append_of_pos hall]
  simp

/-- Bytes without a newline are read to their end. -/
theorem readLine_unterminated {line : List UInt8} (h : newline ∉ line) :
    readLine ⟨line, none⟩ = (.ok line, ⟨[], none⟩) := by
  have hall : ∀ b ∈ line, (b != newline) = true :=
    fun b hb => bne_iff_ne.mpr fun heq => h (heq ▸ hb)
  simp only [readLine, List.span_eq_takeWhile_dropWhile, List.takeWhile_eq_self_iff.mpr hall,
    List.dropWhile_eq_nil_iff.mpr hall]

/-- Reading a line takes the first piece, or nothing if there is none. -/
theorem readLine_eq (bytes : List UInt8) :
    ∃ rest, readLine ⟨bytes, none⟩ = (.ok ((pieces bytes).headD []), ⟨rest, none⟩) ∧
      pieces rest = (pieces bytes).tail := by
  by_cases hnewline : newline ∈ bytes
  · obtain ⟨line, rest, rfl, hline⟩ := List.eq_append_cons_of_mem hnewline
    rw [pieces_append hline]
    exact ⟨rest, readLine_terminated hline rest, rfl⟩
  · refine ⟨[], ?_⟩
    rw [readLine_unterminated hnewline]
    by_cases hempty : bytes = []
    · subst hempty
      exact ⟨rfl, rfl⟩
    · rw [pieces_unterminated hnewline hempty]
      exact ⟨rfl, rfl⟩

end Input

/-- Writing a range keeps what is read above it. -/
theorem Memory.read_write_of_le (m : Memory) {address position : Nat} (bytes : List UInt8)
    (length : Nat) (h : address + bytes.length ≤ position) :
    (m.write address bytes).read position length = m.read position length := by
  unfold read
  apply List.map_congr_left
  intro other hother
  obtain ⟨hlow, -⟩ := List.mem_range'_1.mp hother
  exact get_write_of_le m bytes (by omega)

namespace Machine

variable {config : Config} {arguments : List String} {m n : Machine} {bytes : List UInt8}

/-- The line that has been accepted is what fits the input buffer. -/
theorem source_acceptLine (m : Machine) (line : List UInt8) :
    (m.acceptLine line).source = line.take m.config.inputBuffer := by
  simp only [source, acceptLine, DataSpace.bytesAt, DataSpace.setCell, DataSpace.setBytes,
    Memory.setCell]
  rw [Memory.read_write_of_le _ _ _ (by simp [toInAddress, inputAddress, cellSize]),
    Memory.read_write]

/-- A line that has been accepted is parsed from its start. -/
theorem toIn_acceptLine (m : Machine) (line : List UInt8) : (m.acceptLine line).toIn = 0 :=
  Memory.getCell_setCell _ _ _

/-- Writing the current line hands just its bytes to the output, and leaves the stack as it was. -/
theorem WellFormed.type_source (h : m.WellFormed config arguments) (hroom : 2 ≤ m.data.room)
    {output : Output} (hwrite : m.console.output.write m.source = (.ok (), output)) :
    ∃ s, m.sourceWord = .ok s ∧
      s.typeWord = .done () { m with console := { m.console with output := output } } := by
  let data : Stack .data :=
    ⟨UInt64.ofNat m.lineLength :: UInt64.ofNat inputAddress :: m.data.cells, m.data.room - 2⟩
  have hpush : m.data.pushAll [UInt64.ofNat inputAddress, UInt64.ofNat m.lineLength] = .ok data :=
    (Stack.pushAll_eq _ _).trans (if_pos hroom)
  have hsource : m.sourceWord = .ok { m with data := data } := by
    rw [sourceWord, hpush]
    rfl
  have hline : inputAddress + m.lineLength < config.dataSpace := by
    have hle : m.lineLength ≤ config.inputBuffer := h.line_le
    have hsystem : inputAddress + config.inputBuffer ≤ m.space.here := h.system_le
    have hhere := h.here_lt
    omega
  have hfetch : m.space.fetchBytes (UInt64.ofNat inputAddress) (UInt64.ofNat m.lineLength).toNat =
      .ok m.source :=
    DataSpace.fetchBytes_ofNat (h.space_size ▸ hline) (h.space_size ▸ h.valid.dataSpace.2)
  have hdata : (⟨m.data.cells, m.data.room - 2 + 2⟩ : Stack .data) = m.data :=
    Stack.eq_of_cells rfl (Nat.sub_add_cancel hroom)
  refine ⟨_, hsource, ?_⟩
  apply Option.some.inj
  rw [typeWord_eq]
  simp only [data, Stack.popPair, bind, Except.bind, pure, Except.pure, hfetch, checked, writeThen,
    hwrite, hdata]

/-- The machines of a session whose input was given bytes at first, and which has refilled with
success a number of times since. Anything that does not read the input may have been done as
well. -/
inductive Refilled (bytes : List UInt8) : Nat → Machine → Prop where
  | start {m : Machine} : m.console.input = { pending := bytes } → Refilled bytes 0 m
  | refill {count : Nat} {m n : Machine} : Refilled bytes count m → m.refillWord = .done () n →
      Refilled bytes (count + 1) n
  | other {count : Nat} {m n : Machine} :
      Refilled bytes count m → n.console.input = m.console.input →
      Refilled bytes count n

/-- Where there is room for a cell, it can be pushed. -/
theorem push_of_room (x : Cell) (h : m.data.room ≠ 0) :
    m.push x = .ok { m with data := ⟨x :: m.data.cells, m.data.room - 1⟩ } := by
  have hpush : m.data.push x = .ok ⟨x :: m.data.cells, m.data.room - 1⟩ :=
    Stack.push_eq_ok.mpr ⟨rfl, Nat.sub_add_cancel (Nat.pos_of_ne_zero h)⟩
  rw [push, hpush]
  rfl

/-- A refill without room for the flag is refused. -/
theorem refillWord_of_full (h : m.data.room = 0) :
    m.refillWord = .halted (.fault m.data.overflow) m := by
  unfold refillWord
  simp only [Stack.requireRoom, h, Nat.lt_one_iff, if_true]
  rfl

/-- A refill whose output cannot be delivered is refused. -/
theorem refillWord_of_unflushed (hroom : m.data.room ≠ 0) {message : String}
    (h : m.console.output.flushFailure = some message) :
    m.refillWord = .halted (.fault (.io message)) m := by
  unfold refillWord
  simp only [Stack.requireRoom, Nat.lt_one_iff, if_neg hroom, flush, Output.flush, h]
  rfl

/-- A refill that is not refused first reads a line. -/
theorem refillWord_of_ready (hroom : m.data.room ≠ 0)
    (hflush : m.console.output.flushFailure = none) {line : List UInt8} {input : Input}
    (hread : m.console.input.readLine = (.ok line, input)) :
    let n : Machine := { m with console := { m.console with input := input } }
    m.refillWord = if line.isEmpty then n.attempt (n.push (Cell.ofFlag false))
      else n.attempt ((n.acceptLine (Input.trimLine line)).push (Cell.ofFlag true)) := by
  unfold refillWord
  simp only [Stack.requireRoom, Nat.lt_one_iff, if_neg hroom, flush, Output.flush, hflush, hread]
  rfl

/-- A refill whose input fails halts, and what was read is lost. -/
theorem refillWord_of_broken (hroom : m.data.room ≠ 0)
    (hflush : m.console.output.flushFailure = none) {message : String} {input : Input}
    (hread : m.console.input.readLine = (.error message, input)) :
    m.refillWord =
      .halted (.fault (.io message)) { m with console := { m.console with input := input } } := by
  unfold refillWord
  simp only [Stack.requireRoom, Nat.lt_one_iff, if_neg hroom, flush, Output.flush, hflush, hread]
  rfl

/-- A refill that reads a piece accepts the line, notes in the log if it is too long, and pushes
true. -/
theorem refillWord_of_piece (hroom : m.data.room ≠ 0)
    (hflush : m.console.output.flushFailure = none) {piece : List UInt8} {input : Input}
    (hread : m.console.input.readLine = (.ok piece, input)) (hpiece : piece ≠ []) :
    ∃ n, m.refillWord = .done () n ∧ n.console.input = input ∧
      n.data.cells = Cell.ofFlag true :: m.data.cells ∧
      n.toIn = 0 ∧ n.source = (Input.trimLine piece).take m.config.inputBuffer ∧
      n.console.log =
        m.console.log ++ (LogEntry.ofLine? m.config.inputBuffer (Input.trimLine piece)).toList := by
  let taken : Machine := { m with console := { m.console with input := input } }
  have hpush := push_of_room (m := taken.acceptLine (Input.trimLine piece)) (Cell.ofFlag true) hroom
  rw [refillWord_of_ready hroom hflush hread, if_neg (by simpa using hpiece)]
  exact ⟨_, congrArg (attempt _) hpush, rfl, rfl, toIn_acceptLine taken _,
    source_acceptLine taken _, rfl⟩

/-- A refill that reads nothing pushes false. -/
theorem refillWord_of_end (hroom : m.data.room ≠ 0) (hflush : m.console.output.flushFailure = none)
    {input : Input} (hread : m.console.input.readLine = (.ok [], input)) :
    m.refillWord = .done () { m with
      console := { m.console with input := input }
      data := ⟨Cell.ofFlag false :: m.data.cells, m.data.room - 1⟩ } := by
  let n : Machine := { m with console := { m.console with input := input } }
  have hpush := push_of_room (m := n) (Cell.ofFlag false) hroom
  rw [refillWord_of_ready hroom hflush hread, if_pos List.isEmpty_nil]
  exact congrArg (attempt _) hpush

/-- A refill that succeeds has read a line. -/
theorem input_of_refillWord (h : m.refillWord = .done () n) {line : List UInt8} {input : Input}
    (hread : m.console.input.readLine = (.ok line, input)) : n.console.input = input := by
  have hroom : m.data.room ≠ 0 := by
    intro hfull
    rw [refillWord_of_full hfull] at h
    cases h
  have hflush : m.console.output.flushFailure = none := by
    cases hfailure : m.console.output.flushFailure with
    | none => rfl
    | some message => rw [refillWord_of_unflushed hroom hfailure] at h; cases h
  by_cases hline : line = []
  · subst hline
    rw [refillWord_of_end hroom hflush hread] at h
    cases h
    rfl
  · obtain ⟨o, hrefill, hinput, -⟩ := refillWord_of_piece hroom hflush hread hline
    rw [hrefill] at h
    cases h
    exact hinput

/-- After a number of refills, the input that remains has the pieces after as many. -/
theorem Refilled.pieces_eq {count : Nat} (h : Refilled bytes count m) :
    ∃ rest, m.console.input = ⟨rest, none⟩ ∧
      Input.pieces rest = (Input.pieces bytes).drop count := by
  induction h with
  | start hinput => exact ⟨bytes, hinput, rfl⟩
  | refill _ hrefill ih =>
      obtain ⟨rest, hinput, hpieces⟩ := ih
      obtain ⟨left, hread, hleft⟩ := Input.readLine_eq rest
      rw [← hinput] at hread
      refine ⟨left, input_of_refillWord hrefill hread, ?_⟩
      rw [hleft, hpieces, List.tail_drop]
  | other _ hsame ih =>
      obtain ⟨rest, hinput, hpieces⟩ := ih
      exact ⟨rest, hsame.trans hinput, hpieces⟩

/-- Refills take the input piece by piece. Whatever was done before, after a number of refills the
next one, executed or met in code, makes the piece with that number the current line, trimmed and as
far as the input buffer holds it, from its start; and writing the current line writes just this. If
no piece is left, a refill says so and changes nothing else. Without room for its answer, or if
output cannot be delivered, it changes nothing at all. -/
theorem WellFormed.refill_takes_piece (hm : m.WellFormed config arguments) {count : Nat}
    (h : Refilled bytes count m) :
    Input.Cut bytes (Input.pieces bytes) ∧
    (∀ host budget, m.execute host budget (UInt64.ofNat Primitive.refill.token) =
      some (m.enter (UInt64.ofNat Primitive.refill.token)).refillWord) ∧
    (m.data.room ≠ 0 → m.console.output.flushFailure = none →
      (∀ piece, (Input.pieces bytes)[count]? = some piece → ∃ line n, Input.Trims piece line ∧
        m.refillWord = .done () n ∧ n.data.cells = Cell.ofFlag true :: m.data.cells ∧ n.toIn = 0 ∧
        n.source = line.take config.inputBuffer ∧
        ∀ output, 2 ≤ n.data.room →
          n.console.output.write (line.take config.inputBuffer) = (.ok (), output) →
          ∃ s, n.sourceWord = .ok s ∧
            s.typeWord = .done () { n with console := { n.console with output := output } }) ∧
      ((Input.pieces bytes).length ≤ count →
        m.refillWord =
          .done () { m with data := ⟨Cell.ofFlag false :: m.data.cells, m.data.room - 1⟩ })) ∧
    (m.data.room = 0 → m.refillWord = .halted (.fault m.data.overflow) m) ∧
    (m.data.room ≠ 0 → ∀ message, m.console.output.flushFailure = some message →
      m.refillWord = .halted (.fault (.io message)) m) := by
  obtain ⟨rest, hinput, hpieces⟩ := h.pieces_eq
  obtain ⟨left, hread, -⟩ := Input.readLine_eq rest
  rw [← hinput, hpieces] at hread
  refine ⟨Input.cut_pieces bytes, fun host budget => ?_, fun hroom hflush => ⟨?_, ?_⟩,
    refillWord_of_full, fun hroom message => refillWord_of_unflushed hroom⟩
  · obtain ⟨d, hresolve, -, haction⟩ := hm.resolve_token .refill
    rw [execute_of_oblivious host budget hresolve haction rfl Effect.refillWord_oblivious]
    exact congrArg some (Effect.refillWord_oblivious m _).symm
  · intro piece hpiece
    have hhead : ((Input.pieces bytes).drop count).headD [] = piece := by
      rw [List.headD_eq_head?_getD, List.head?_drop, hpiece]
      rfl
    have hne : piece ≠ [] := (Input.cut_pieces bytes).nonempty piece (List.mem_of_getElem? hpiece)
    obtain ⟨n, hrefill, -, hcells, htoIn, hsource, -⟩ :=
      refillWord_of_piece hroom hflush (hhead ▸ hread) hne
    rw [hm.config_eq] at hsource
    refine ⟨Input.trimLine piece, n, Input.trims_trimLine piece, hrefill, hcells, htoIn, hsource,
      ?_⟩
    intro output htwo hwrite
    have hcontinues : m.Continues m.refillWord.machine := (Effect.refillWord_steady m).machine
    rw [hrefill] at hcontinues
    rw [← hsource] at hwrite
    exact (hm.continues hcontinues).type_source htwo hwrite
  · intro hend
    have hrest : rest = [] := by
      rw [← (Input.cut_pieces rest).flatten, hpieces, List.drop_eq_nil_of_le hend]
      rfl
    have hread : m.console.input.readLine = (.ok [], m.console.input) := by
      rw [hinput, hrest]
      rfl
    exact refillWord_of_end hroom hflush hread

/-- After a line that ends with carriage return and newline, a last line without a newline is cut to
the buffer. -/
theorem WellFormed.refill_takes_piece_cut :
    ∃ m n : Machine, m.WellFormed { inputBuffer := 3 } [] ∧
      Refilled [97, 13, 10, 98, 99, 100, 101, 102] 1 m ∧
      m.source = [97] ∧ m.refillWord = .done () n ∧
      n.data.cells = [Cell.ofFlag true, Cell.ofFlag true] ∧
      n.toIn = 0 ∧ n.source = [98, 99, 100] := by
  let input : Input := { pending := [97, 13, 10, 98, 99, 100, 101, 102] }
  let refill : Operation := .ask (.execute (UInt64.ofNat Primitive.refill.token))
  have hsession : ((boot { inputBuffer := 3 } [] ⟨input, {}, []⟩ {}).toOption.any fun b =>
      b.console.input.pending == input.pending && b.console.input.failure == none &&
        (refill.perform 0 b).endsWith none fun m =>
        m.source == [97] && m.data.cells == [Cell.ofFlag true] &&
          m.data.room == 255 && m.console.output.flushFailure == none) = true := by decide +kernel
  obtain ⟨b, hboot, hchecks⟩ := exists_ok_of_any hsession
  simp only [Bool.and_eq_true, beq_iff_eq] at hchecks
  obtain ⟨⟨hpending, hfailure⟩, hchecks⟩ := hchecks
  obtain ⟨_, m, hrefill, hchecks⟩ := Run.exists_done hchecks
  simp only [Bool.and_eq_true, beq_iff_eq] at hchecks
  obtain ⟨⟨⟨hsource, hcells⟩, hroom⟩, hflush⟩ := hchecks
  have live : Live { inputBuffer := 3 } [] b := .boot hboot
  have hinput : b.console.input = input :=
    calc b.console.input = ⟨b.console.input.pending, b.console.input.failure⟩ := rfl
      _ = input := by rw [hpending, hfailure]
  have hfirst := (live.wellFormed.refill_takes_piece (.start hinput)).2.1 (HostCode.run 0) 0
  have hrefilled : Refilled input.pending 1 m :=
    .refill (.other (n := b.enter _) (.start hinput) rfl)
      (Option.some.inj (hfirst.symm.trans hrefill))
  have hm : m.WellFormed { inputBuffer := 3 } [] := (Live.perform refill 0 live hrefill).wellFormed
  obtain ⟨line, n, htrims, hn, hcells', htoIn, hsource', -⟩ :=
    ((hm.refill_takes_piece hrefilled).2.2.1 (by omega) hflush).1 [98, 99, 100, 101, 102]
      (by decide)
  rw [htrims.eq_trimLine] at hsource'
  exact ⟨m, n, hm, hrefilled, hsource, hn, hcells ▸ hcells', htoIn, hsource'⟩

end Machine

end ThreadedForth
