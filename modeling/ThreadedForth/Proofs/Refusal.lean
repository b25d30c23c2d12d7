import ThreadedForth.Proofs.EntryCursor
import ThreadedForth.Proofs.Lines
import ThreadedForth.Proofs.RawSession

/-!
# What a halt leaves behind

A primitive makes all its checks before it changes anything. If it halts, the machine is as it was,
except that the console may have accepted some output and been read from. This is not a matter of
how changes are written down: it also holds of the primitives as raw accesses, where every access
happens at once and stays done. The one primitive that invokes another word removes its operand
before it does so, and a halt of that word keeps it removed.
-/

namespace ThreadedForth

namespace Output

/-- Accepting no bytes changes nothing. -/
theorem accept_nil (output : Output) : output.accept [] = output := by
  unfold accept
  split
  · rfl
  · simp

/-- Accepting bytes and then more is accepting all of them. -/
theorem accept_append (output : Output) (left right : List UInt8) (room : Option Nat) :
    { output.accept left with room := room }.accept right =
      { output.accept (left ++ right) with room := room } := by
  cases hdiscarding : output.discarding with
  | true => simp [accept, hdiscarding]
  | false => simp [accept, hdiscarding, Array.append_assoc]

/-- An output that has accepted bytes, and has that much less room. -/
def Accepted (before after : Output) : Prop :=
  ∃ bytes, after = { before.accept bytes with room := before.room.map (· - bytes.length) }

/-- An output has accepted nothing to begin with. -/
theorem Accepted.refl (output : Output) : output.Accepted output := by
  refine ⟨[], ?_⟩
  rw [accept_nil]
  cases hroom : output.room <;> simp [← hroom]

/-- Accepted bytes add up. -/
theorem Accepted.trans {first second third : Output} (h : first.Accepted second)
    (h' : second.Accepted third) :
    first.Accepted third := by
  obtain ⟨left, rfl⟩ := h
  obtain ⟨right, rfl⟩ := h'
  refine ⟨left ++ right, ?_⟩
  rw [accept_append]
  cases first.room with
  | none => rfl
  | some room => simp [Nat.sub_sub]

/-- Writing accepts bytes, whether all that were given or some of them. -/
theorem accepted_write (output : Output) (bytes : List UInt8) :
    output.Accepted (output.write bytes).2 := by
  unfold write
  split
  · next hroom =>
      have hkept : (output.accept bytes).room = none := by
        unfold accept
        split <;> exact hroom
      refine ⟨bytes, ?_⟩
      rw [hroom, Option.map_none, ← hkept]
  · next room hroom =>
      split
      · exact ⟨bytes, by simp [hroom]⟩
      · next hfull =>
          have hlength : (bytes.take room).length = room := List.length_take_of_le (by omega)
          exact ⟨bytes.take room, by simp only [hroom, Option.map_some, hlength, Nat.sub_self]⟩

end Output

namespace Input

/-- An input from which bytes have been taken. -/
def Consumed (before after : Input) : Prop :=
  ∃ taken, before = { after with pending := taken ++ after.pending }

/-- Reading a line takes bytes, whether it gives a line or fails. -/
theorem consumed_readLine (input : Input) : input.Consumed input.readLine.2 := by
  rcases hread : input.readLine with ⟨message | line, next⟩
  · rw [eq_of_readLine_error hread]
    exact ⟨input.pending, by simp⟩
  · exact ⟨line, eq_of_readLine_ok hread⟩

end Input

/-- A console that has at most accepted output and been read from; nothing has been written to its
log. -/
structure Console.Used (before after : Console) : Prop where
  output : before.output.Accepted after.output
  input : before.input.Consumed after.input
  log : after.log = before.log

namespace Machine

/-- A machine that differs from an earlier one at most in having used its console. -/
structure Spends (m n : Machine) : Prop where
  rest : n = { m with console := n.console }
  console : m.console.Used n.console

/-- A machine that differs from an earlier one at most in the output that it has accepted. -/
def Outputs (m n : Machine) : Prop :=
  ∃ output, m.console.output.Accepted output ∧
    n = { m with console := { m.console with output := output } }

/-- A machine accepts nothing by doing nothing. -/
theorem Outputs.refl (m : Machine) : m.Outputs m := ⟨_, .refl _, rfl⟩

/-- Accepting output is a way of using the console. -/
theorem Outputs.spends {m n : Machine} (h : m.Outputs n) : m.Spends n := by
  obtain ⟨output, haccepted, rfl⟩ := h
  exact ⟨rfl, haccepted, ⟨[], rfl⟩, rfl⟩

end Machine

/-- An effect that leaves the machine as it was if it halts, apart from the console. -/
def Effect.Reverts (effect : Effect) : Prop :=
  ∀ (m : Machine) (reason : Halt) (n : Machine), effect m = .halted reason n → m.Spends n

/-- An effect that leaves the machine as it was if it halts, apart from its output. -/
def Effect.Outputs (effect : Effect) : Prop :=
  ∀ (m : Machine) (reason : Halt) (n : Machine), effect m = .halted reason n → m.Outputs n

namespace Effect

/-- A change that is refused does not happen. -/
theorem change_outputs (f : Machine → Except Fault Machine) : (change f).Outputs := by
  intro m reason n h
  unfold change Machine.attempt at h
  split at h <;> cases h
  exact .refl m

/-- A word that writes first leaves the rest as it was, if what comes after the writing does. -/
theorem writeThen_outputs {bytes : List UInt8} {next : Effect} {m n : Machine} {reason : Halt}
    (hnext : ∀ s, next s = .halted reason n → s.Outputs n)
    (h : m.writeThen bytes next = .halted reason n) : m.Outputs n := by
  have haccepted := m.console.output.accepted_write bytes
  unfold Machine.writeThen at h
  split at h
  · next output hwrite =>
      obtain ⟨last, hmore, rfl⟩ := hnext _ h
      rw [hwrite] at haccepted
      exact ⟨last, haccepted.trans hmore, rfl⟩
  · next message output hwrite =>
      rw [hwrite] at haccepted
      cases h
      exact ⟨output, haccepted, rfl⟩

/-- Writing a byte leaves the rest of the machine as it was if it halts. -/
theorem emitWord_outputs : Effect.Outputs Machine.emitWord := by
  intro m reason n h
  unfold Machine.emitWord at h
  split at h
  · cases h; exact .refl m
  · exact writeThen_outputs (fun _ hdone => by cases hdone) h

/-- Writing a range of bytes leaves the rest of the machine as it was if it halts. -/
theorem typeWord_outputs : Effect.Outputs Machine.typeWord := by
  intro m reason n h
  unfold Machine.typeWord at h
  dsimp only at h
  split at h
  · cases h; exact .refl m
  · exact writeThen_outputs (fun _ hdone => by cases hdone) h

/-- Writing a newline leaves the rest of the machine as it was if it halts. -/
theorem newlineWord_outputs : Effect.Outputs Machine.newlineWord := fun _ _ _ h =>
  writeThen_outputs (fun _ hdone => by cases hdone) h

/-- Listing the dictionary leaves the rest of the machine as it was if it halts, even if the newline
is refused after the names have been accepted. -/
theorem wordsWord_outputs : Effect.Outputs Machine.wordsWord := fun _ reason n h =>
  writeThen_outputs (fun s hnewline => newlineWord_outputs s reason n hnewline) h

/-- Leaving the session leaves the rest of the machine as it was if it halts. -/
theorem byeWord_outputs : Effect.Outputs Machine.byeWord := by
  intro m reason n h
  unfold Machine.byeWord at h
  split at h <;> cases h <;> exact .refl m

/-- A push that is refused found no room. -/
theorem room_of_push_halted {m n o : Machine} {x : Cell} {reason : Halt}
    (h : m.attempt (n.push x) = .halted reason o) : n.data.room = 0 := by
  by_contra hne
  obtain ⟨room, hroom⟩ := Nat.exists_eq_succ_of_ne_zero hne
  have hpush : n.push x = .ok { n with data := ⟨x :: n.data.cells, room⟩ } :=
    bind_eq_ok.mpr ⟨_, Stack.push_eq_ok.mpr ⟨rfl, hroom.symm⟩, rfl⟩
  rw [hpush] at h
  cases h

/-- Reading the next line leaves the rest of the machine as it was if it halts. The flag is pushed
after the line has been read and accepted, but the room for it has been made sure of first. -/
theorem refillWord_reverts : Effect.Reverts Machine.refillWord := by
  intro m reason n h
  unfold Machine.refillWord at h
  dsimp only at h
  split at h
  · cases h
    exact (Machine.Outputs.refl m).spends
  · next hready =>
      obtain ⟨_, hrequire, -⟩ := bind_eq_ok.mp hready
      have hroom : m.data.room ≠ 0 := by
        unfold Stack.requireRoom at hrequire
        split at hrequire
        · cases hrequire
        · omega
      have hconsumed := m.console.input.consumed_readLine
      split at h
      · next message input hread =>
          rw [hread] at hconsumed
          cases h
          exact ⟨rfl, .refl _, hconsumed, rfl⟩
      · split at h
        · exact absurd (room_of_push_halted h) hroom
        · exact absurd (room_of_push_halted h) hroom

end Effect

open Effect in
/-- Every primitive but the one that reads leaves the machine as it was if it halts, apart from its
output. -/
theorem Primitive.effect_outputs {p : Primitive} {effect : Effect} (h : p.effect? = some effect)
    (hp : p ≠ .refill) : effect.Outputs := by
  cases p <;> cases h
  case refill => exact absurd rfl hp
  case words => exact wordsWord_outputs
  case emit => exact emitWord_outputs
  case type => exact typeWord_outputs
  case cr => exact newlineWord_outputs
  case bye => exact byeWord_outputs
  all_goals exact change_outputs _

/-- Every primitive with an effect of its own leaves the machine as it was if it halts, apart from
the console. -/
theorem Primitive.effect_reverts {p : Primitive} {effect : Effect} (h : p.effect? = some effect) :
    effect.Reverts := by
  by_cases hp : p = .refill
  · subst hp
    cases h
    exact Effect.refillWord_reverts
  · exact fun m reason n hhalted => (p.effect_outputs h hp m reason n hhalted).spends

namespace Machine

variable {m n : Machine} {host : HostRunner} {reason : Halt}

/-- A primitive other than the one that invokes another word has an effect of its own. -/
theorem dispatch_spends {p : Primitive} (hp : p ≠ .execute)
    (h : m.dispatch host p = some (.halted reason n)) : m.Spends n := by
  unfold dispatch at h
  split at h
  · next effect heffect => exact p.effect_reverts heffect m reason n (Option.some.inj h)
  · next hnone => exact absurd (Primitive.eq_execute_of_effect? hnone) hp

/-- The address behind an operand is eight more, without wrapping around. -/
theorem toNat_behind_operand {slot token : Cell} (hoperand : m.operand = .ok (slot, token))
    (hsize : m.space.size ≤ Area.dataSpace.maximum) : (slot + 8).toNat = slot.toNat + 8 := by
  have hmaximum : Area.dataSpace.maximum = 0x40000000 := rfl
  have hcell : cellSize = 8 := rfl
  have hslot : slot.toNat + cellSize ≤ m.space.size := by
    unfold operand at hoperand
    split at hoperand
    · cases hoperand
    · obtain ⟨x, hfetch, heq⟩ := bind_eq_ok.mp hoperand
      cases heq
      exact toNat_lt_of_fetch hfetch
  rw [UInt64.toNat_add, show (8 : UInt64).toNat = 8 from rfl, Nat.mod_eq_of_lt (by omega)]

end Machine

namespace Raw

variable {config : Config} {arguments : List String} {host : HostRunner} {raw : Runner}
  {m : Machine}

/-- Dispatch a primitive by raw accesses. -/
def dispatch (host : Runner) (p : Primitive) : Raw Machine Unit := do
  let depth ← look (·.data.depth)
  primitive (invokeTop host (depth + 1)) p

/-- Dispatched by raw accesses, a primitive does what it does without them. -/
theorem dispatch_run (mirrors : Mirrors config arguments raw host) (hm : Fits config arguments m)
    (p : Primitive) : (dispatch raw p).run m = .ofRun (m.dispatch host p) := by
  rw [dispatch, bind_look, Machine.dispatch]
  cases heffect : p.effect? with
  | some effect => exact primitive_realizes _ heffect m hm.1.addressable
  | none =>
      cases Primitive.eq_execute_of_effect? heffect
      exact invokeTop_run mirrors _ hm (Nat.lt_succ_self _)

end Raw

namespace Machine

variable {config : Config} {arguments : List String} {m : Machine}

/-- A primitive that halts changes nothing, in every live session and at every console, be it
failing or not: at most the console has accepted output and been read from. Reached by a step, it
also finds the cursor eight further and the token made the current one; a step that does not come to
a definition changes nothing at all. The primitive that invokes another word changes nothing if it
has no operand or one that names no definition, and otherwise does what that word does once the
operand has been taken. By raw accesses, where each one stays done, all this is the same. -/
theorem Live.halted_primitive_reverts (live : Live config arguments m) (console : Console)
    (budget : Nat) :
    let s : Machine := { m with console := console }
    let host := HostCode.run budget
    ((∀ p, (Raw.dispatch (Raw.hostRun budget) p).run s = .ofRun (s.dispatch host p)) ∧
      (Raw.step (Raw.hostRun budget)).run s = .ofRun (s.step host)) ∧
    (∀ p reason n, p ≠ .execute → s.dispatch host p = some (.halted reason n) → s.Spends n) ∧
    (∀ slot token d p, s.operand = .ok (slot, token) → s.resolve token = .ok d →
      d.action = .primitive p →
      let moved : Machine := { s with cursor := some (slot + 8), current := some token.toNat }
      (slot + 8).toNat = slot.toNat + 8 ∧ s.step host = moved.dispatch host p ∧
        ∀ reason n, p ≠ .execute → s.step host = some (.halted reason n) → moved.Spends n) ∧
    (∀ fault, (s.operand = .error fault ∨
        ∃ slot token, s.operand = .ok (slot, token) ∧ s.resolve token = .error fault) →
      s.step host = some (.halted (.fault fault) s)) ∧
    (∀ fault, (s.pop = .error fault ∨ ∃ token popped, s.pop = .ok (token, popped) ∧
      s.resolve token = .error fault) →
      s.dispatch host .execute = some (.halted (.fault fault) s)) ∧
    ∀ token popped d, s.pop = .ok (token, popped) → s.resolve token = .ok d →
      s.dispatch host .execute = popped.invoke host token d := by
  intro s host
  have hfits : Raw.Fits config arguments s := (Raw.fits_of_live live).continues (.free m _ _ _ _)
  have hmirrors := Raw.hostRun_mirrors live.fresh_eq_ok budget
  have hsize : s.space.size ≤ Area.dataSpace.maximum :=
    hfits.1.space_size ▸ hfits.1.valid.dataSpace.2
  have hexecute : s.dispatch host .execute = _ := invokeTop_eq host s
  refine ⟨⟨Raw.dispatch_run hmirrors hfits, Raw.step_run hmirrors hfits⟩, ?_, ?_, ?_, ?_, ?_⟩
  · exact fun p reason n hp h => dispatch_spends hp h
  · intro slot token d p hoperand hresolve haction moved
    have hstep : s.step host = moved.dispatch host p := by
      rw [step_eq, hoperand, checked, hresolve, checked]
      exact invoke_of_primitive haction host token
    refine ⟨toNat_behind_operand hoperand hsize, hstep, fun reason n hp h => ?_⟩
    exact dispatch_spends hp (hstep.symm.trans h)
  · rintro fault (hoperand | ⟨slot, token, hoperand, hresolve⟩)
    · rw [step_eq, hoperand, checked]
    · rw [step_eq, hoperand, checked, hresolve, checked]
  · rintro fault (hpop | ⟨token, popped, hpop, hresolve⟩)
    · rw [hexecute, hpop, checked]
    · rw [hexecute, hpop, checked, hresolve, checked]
  · intro token popped d hpop hresolve
    rw [hexecute, hpop, checked, hresolve, checked]

/-- Three bytes are to be typed and the sink takes two: these are accepted, and the operands stay on
the stack. -/
theorem Live.halted_primitive_reverts_full_sink :
    ∃ m n, Live {} [] m ∧ m.data.cells = [3, 0] ∧
      dispatch (HostCode.run 0) .type
          { m with
            console := { m.console with
              output := { room := some 2, refusal := .failing "pipe closed" } } } =
        some (.halted (.fault (.io "pipe closed")) n) ∧
      n.console.output.written = #[0, 0] ∧ n.data = m.data ∧ n.space = m.space := by
  have hsession : ((Machine.boot {} [] Console.null {}).toOption.any fun b =>
      ((Operation.ask (.push 0)).perform 0 b).endsWith none fun s =>
        ((Operation.ask (.push 3)).perform 0 s).endsWith none fun m => m.data.cells == [3, 0] &&
          (dispatch (HostCode.run 0) .type { m with
              console := { m.console with
                output := { room := some 2, refusal := .failing "pipe closed" } } }).endsWith
            (some (.fault (.io "pipe closed"))) (·.console.output.written == #[0, 0])) =
            true := by decide +kernel
  obtain ⟨b, hboot, hpushed⟩ := exists_ok_of_any hsession
  obtain ⟨_, s, hfirst, hpushed⟩ := Run.exists_done hpushed
  obtain ⟨_, m, hsecond, hchecks⟩ := Run.exists_done hpushed
  simp only [Bool.and_eq_true, beq_iff_eq] at hchecks
  obtain ⟨hdata, htyped⟩ := hchecks
  obtain ⟨n, hhalted, hwritten⟩ := Run.exists_halted htyped
  have live : Live {} [] m := ((Live.boot hboot).perform _ 0 hfirst).perform _ 0 hsecond
  obtain ⟨hrest, -⟩ := (live.halted_primitive_reverts _ 0).2.1 .type _ n (by decide) hhalted
  exact ⟨m, n, live, hdata, hhalted, beq_iff_eq.mp hwritten, by rw [hrest], by rw [hrest]⟩

end Machine

end ThreadedForth
