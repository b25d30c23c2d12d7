import ThreadedForth.Proofs.RawStart

/-!
# Sessions by raw accesses

The requests of the application and of its host programs, with every access to a stack or to data
space a raw one. No session makes an access out of range, nor computes a position that does not fit
a machine word: whatever the application and its host programs do, raw accesses do what the
operations on the machine do.
-/

namespace ThreadedForth

namespace Raw

variable {σ α β : Type}

/-- Take a halt for an answer. -/
def settle (x : Raw σ α) : Raw σ (Except Halt α) := fun s =>
  match x.run s with
  | .done value t => .done (.ok value) t
  | .halted reason t => .done (.error reason) t
  | .exhausted => .exhausted
  | .outOfRange => .outOfRange

/-- Take the top cell of the data stack. -/
def pop : Raw Machine Cell := do
  onData (requireDepth 1)
  onData take

/-- Hide a definition from lookup, or show it again. -/
def setHidden (token : Cell) (hidden : Bool) : Raw Machine Unit := do
  let _ ← check (·.resolve token)
  revise fun m =>
    { m with dictionary := m.dictionary.modify token.toNat fun d => { d with hidden := hidden } }

/-- Read the cell at an arbitrary address. -/
def fetchCell (address : Cell) : Raw Machine Cell := do
  let position ← check (·.space.cellAddress address)
  onSpace (loadCell position)

/-- Write the cell at an arbitrary address. -/
def storeCell (address x : Cell) : Raw Machine Unit := do
  let position ← check (·.space.cellAddress address)
  onSpace (saveCell position x)

/-- Read a range of bytes at an arbitrary address. -/
def readBytes (address length : Cell) : Raw Machine (List UInt8) := do
  let position ← check (·.space.byteRange address length.toNat)
  onSpace (loadBytes position length.toNat)

/-- The current input line. -/
def source : Raw Machine (List UInt8) := do
  let length ← look Machine.lineLength
  onSpace (loadBytes inputAddress length)

/-- Whether the machine is compiling. -/
def isCompiling : Raw Machine Bool := do
  let state ← onSpace (loadCell stateAddress)
  return state != 0

/-- Carry out a request. -/
def request (host : Runner) (budget : Nat) : (r : Request) → Raw Machine r.Reply
  | .push x => pushWord fun _ => [x]
  | .pop => pop
  | .execute token => execute host budget token
  | .step => step host
  | .run => runFree host budget
  | .reset => reset
  | .find name => look (·.find? name)
  | .defineColon name => define name .nested false
  | .compileCell x => onSpace (appendCell x)
  | .compileToken token => onSpace (appendCell token)
  | .compileLiteral x => onSpace (appendPair (UInt64.ofNat Primitive.literal.token) x)
  | .setHidden token hidden => setHidden token hidden
  | .fetchCell address => fetchCell address
  | .storeCell address x => storeCell address x
  | .readBytes address length => readBytes address length
  | .setCursor cursor => revise fun m => { m with cursor := cursor }
  | .source => source
  | .isCompiling => isCompiling
  | .toIn => onSpace (loadCell toInAddress)
  | .flush => check Machine.flush

/-- Carry out a host program, given how its requests are carried out. -/
def runWith (answer : (r : Request) → Raw Machine r.Reply) : HostCode → Raw Machine Unit
  | .done (.ok ()) => return ()
  | .done (.error reason) => fun m => .halted reason m
  | .ask r next => do runWith answer (next (← settle (answer r)))
  | .define name body next => do runWith answer (next (← settle (define name (.host body) false)))

/-- Carry out a host program within a budget. -/
def hostRun : Nat → Runner
  | 0 => fun _ => exhaust
  | budget + 1 => runWith (request (hostRun budget) budget)

/-- Carry out an operation within a budget. -/
def operation (budget : Nat) : (op : Operation) → Raw Machine op.Reply
  | .ask r => request (hostRun budget) budget r
  | .define name body => define name (.host body) false

/-- Carry out operations one after the other, each within a budget of its own; one that halts does
not keep the application from going on. -/
def session : List (Operation × Nat) → Raw Machine Unit
  | [] => return ()
  | (op, budget) :: rest => do
      let _ ← settle (operation budget op)
      session rest

variable {m : Machine}

/-- The answer of an operation that ends is its result. -/
theorem settle_some {x : Raw Machine α} {outcome : Outcome α}
    (h : x.run m = .ofRun (some outcome)) :
    (settle x).run m = .done outcome.result outcome.machine := by
  rw [run, settle, h]
  cases outcome <;> rfl

/-- An operation that has used up its budget has no answer. -/
theorem settle_none {x : Raw Machine α} (h : x.run m = .ofRun none) :
    (settle x).run m = .exhausted := by
  rw [run, settle, h]
  rfl

/-- A check followed by a raw access that reads gives what the reading of the machine gives. -/
theorem check_read {reading : Machine → Except Fault α} {next : α → Raw Machine β} {f : α → β}
    (h : ∀ value, reading m = .ok value → (next value).run m = .done (f value) m) :
    (check reading >>= next).run m = .ofRun (some (m.inspect (do return f (← reading m)))) := by
  cases hreading : reading m with
  | error cause => exact bind_halted (check_error hreading)
  | ok value => exact (bind_done (check_ok hreading)).trans (h value hreading)

/-- A check is a reading of the machine. -/
theorem check_run {reading : Machine → Except Fault α} :
    (check reading).run m = .ofRun (some (m.inspect (reading m))) := by
  cases hreading : reading m with
  | error cause => exact check_error hreading
  | ok value => exact check_ok hreading

/-- Taking the top cell is in range. -/
theorem pop_run : pop.run m = .ofRun (some (m.attemptWith m.pop)) := by
  rw [pop, Machine.pop]
  rcases hdata : m.data with ⟨_ | ⟨x, rest⟩, room⟩
  · exact bind_halted (onData_halted hdata rfl)
  · rw [bind_done (onData_read hdata requireDepth_one)]
    exact onData_done hdata take_top

/-- Hiding a definition is in range. -/
theorem setHidden_run (token : Cell) (hidden : Bool) :
    (setHidden token hidden).run m = .ofRun (some (m.attempt (m.setHidden token hidden))) := by
  rw [Ending.ofRun_attempt]
  exact check_bind fun _ _ => rfl

/-- Appending to data space is in range. -/
theorem append_run {x : Raw DataSpace Unit} {cells : List Cell}
    (h : x.run m.space = .ofChange m.space (m.space.appendCells cells)) :
    (onSpace x).run m =
      .ofRun (some (m.attempt (do return { m with space := ← m.space.appendCells cells }))) := by
  rw [Ending.ofRun_attempt]
  exact onSpace_change h

section Addressable

variable (hm : m.Addressable)
include hm

/-- Reading a cell is in range. -/
theorem fetchCell_run (address : Cell) :
    (fetchCell address).run m = .ofRun (some (m.inspect (m.space.fetch address))) :=
  check_read fun _ hposition =>
    onSpace_read (loadCell_of_le (DataSpace.cellAddress_le hposition) hm.space)

/-- Reading a range of bytes is in range. -/
theorem readBytes_run (address length : Cell) :
    (readBytes address length).run m =
      .ofRun (some (m.inspect (m.space.fetchBytes address length.toNat))) :=
  check_read fun _ hposition =>
    onSpace_read (loadBytes_of_le (DataSpace.byteRange_le hposition) hm.space)

/-- Writing a cell is in range. -/
theorem storeCell_run (address x : Cell) :
    (storeCell address x).run m = .ofRun (some (m.attempt (m.storeCell address x))) := by
  rw [Ending.ofRun_attempt, storeCell, Machine.storeCell]
  simp only [DataSpace.store, bind_assoc, pure_bind]
  refine check_bind fun position hposition => ?_
  exact onSpace_done (saveCell_of_le x (DataSpace.cellAddress_le hposition) hm.space)

/-- Reading the cells of the system area is in range. -/
theorem systemCell_run {position : Nat} (h : position + cellSize ≤ inputAddress) :
    (onSpace (loadCell position)).run m = .done (m.space.cellAt position) m := by
  have hsystem : inputAddress + m.config.inputBuffer ≤ m.space.size := hm.system
  exact onSpace_read (loadCell_of_le (by omega) hm.space)

/-- Reading the current line is in range. -/
theorem source_run : source.run m = .done m.source m := by
  have hsystem : inputAddress + m.config.inputBuffer ≤ m.space.size := hm.system
  have hline := hm.line
  rw [source, bind_look]
  exact onSpace_read (loadBytes_of_le (by omega) hm.space)

end Addressable

variable {config : Config} {arguments : List String} {host : HostRunner} {raw : Runner}

/-- A host program is in range if the answers to its requests are. -/
theorem runWith_run {answer : (r : Request) → Machine → Run r.Reply}
    {rawAnswer : (r : Request) → Raw Machine r.Reply}
    (hrun : ∀ r n, Fits config arguments n → (rawAnswer r).run n = .ofRun (answer r n))
    (hkeeps : ∀ r n, Fits config arguments n →
      Run.Meets (Fits config arguments) (fun _ => True) (answer r n))
    (code : HostCode) (hm : Fits config arguments m) :
    (runWith rawAnswer code).run m = .ofRun (code.runWith answer m) := by
  induction code generalizing m with
  | done result =>
      cases result with
      | ok => rfl
      | error reason => rfl
  | ask r next ih =>
      have hreply := hkeeps r m hm
      have hrequest := hrun r m hm
      rw [runWith, HostCode.runWith]
      rcases hanswer : answer r m with _ | ⟨reply, n⟩ | ⟨reason, n⟩
      · rw [hanswer] at hrequest; exact bind_exhausted (settle_none hrequest)
      · rw [hanswer] at hrequest; exact (bind_done (settle_some hrequest)).trans
          (ih _ (hreply _ hanswer))
      · rw [hanswer] at hrequest; exact (bind_done (settle_some hrequest)).trans
          (ih _ (hreply _ hanswer).1)
  | define name body next _ ih =>
      have haddressable := hm.1.addressable
      have hdefine :=
        invariant.define name hm (body.obeys_of_forall (fun _ => trivial) fun _ => trivial)
      have hrequest := define_run name (.host body) false haddressable.here haddressable.space
      rw [runWith, HostCode.runWith, bind_done (settle_some hrequest)]
      cases hadded : m.define name (.host body) false with
      | error cause => exact ih _ hm
      | ok added =>
          rw [hadded] at hdefine
          exact ih _ hdefine

section Restart

variable (hfresh : ∀ console clock, ∃ n, Machine.fresh config arguments console clock = .ok n)
include hfresh

/-- Requests are in range. -/
theorem request_run (mirrors : Mirrors config arguments raw host) (budget : Nat) (r : Request)
    (hm : Fits config arguments m) :
    (request raw budget r).run m = .ofRun (r.perform host budget m) := by
  have haddressable := hm.1.addressable
  cases r with
  | push x => exact pushWord_realizes_push (fun _ => x) m haddressable
  | pop => exact pop_run
  | execute token => exact execute_run mirrors budget token hm
  | step => exact step_run mirrors hm
  | run => exact runFree_run mirrors budget hm
  | reset =>
      obtain ⟨n, hn⟩ := hfresh m.console m.clock
      exact reset_run hm.1 hn
  | defineColon name => exact define_run name .nested false haddressable.here haddressable.space
  | compileCell x | compileToken x => exact append_run (appendCell_run x haddressable.space)
  | compileLiteral x => exact append_run (appendPair_run _ x haddressable.space)
  | setHidden token hidden => exact setHidden_run token hidden
  | fetchCell address => exact fetchCell_run haddressable address
  | storeCell address x => exact storeCell_run haddressable address x
  | readBytes address length => exact readBytes_run haddressable address length
  | source => exact source_run haddressable
  | isCompiling => exact bind_done (systemCell_run haddressable (by decide))
  | toIn => exact systemCell_run haddressable (by decide)
  | flush => exact check_run
  | find name => rfl
  | setCursor cursor => rfl

/-- Host programs are in range within every budget. -/
theorem hostRun_mirrors (budget : Nat) :
    Mirrors config arguments (hostRun budget) (HostCode.run budget) := by
  induction budget with
  | zero => exact ⟨invariant.hostRun 0, fun _ _ _ => rfl⟩
  | succ budget ih =>
      refine ⟨invariant.hostRun (budget + 1), fun code m hm => ?_⟩
      refine runWith_run (fun r n hn => request_run hfresh ih budget r hn)
        (fun r n hn => ?_) code hm
      exact invariant.perform (invariant.hostRun budget) budget r trivial hn

/-- Operations are in range. -/
theorem operation_run (budget : Nat) (op : Operation) (hm : Fits config arguments m) :
    (operation budget op).run m = .ofRun (op.perform budget m) := by
  cases op with
  | ask r => exact request_run hfresh (hostRun_mirrors hfresh budget) budget r hm
  | define name body =>
      have haddressable := hm.1.addressable
      exact define_run name (.host body) false haddressable.here haddressable.space

end Restart

open Machine (Live)

/-- In a live session nothing is forbidden to host programs. -/
theorem fits_of_live (live : Live config arguments m) : Fits config arguments m :=
  ⟨live.wellFormed, fun _ _ code _ _ => code.obeys_of_forall (fun _ => trivial) fun _ => trivial⟩

/-- Operations of a live session are in range. -/
theorem operation_run_of_live (live : Live config arguments m) (op : Operation) (budget : Nat) :
    (operation budget op).run m = .ofRun (op.perform budget m) :=
  operation_run live.fresh_eq_ok budget op (fits_of_live live)

/-- A live session stays in range whatever the application goes on to do. -/
theorem session_ne_outOfRange (operations : List (Operation × Nat))
    (live : Live config arguments m) : (session operations).run m ≠ .outOfRange := by
  induction operations generalizing m with
  | nil => exact fun h => (nomatch h)
  | cons first rest ih =>
      obtain ⟨op, budget⟩ := first
      have hrun := operation_run_of_live live op budget
      rw [session]
      cases hperform : op.perform budget m with
      | none =>
          rw [hperform] at hrun
          rw [bind_exhausted (settle_none hrun)]
          exact fun h => (nomatch h)
      | some outcome =>
          rw [hperform] at hrun
          rw [bind_done (settle_some hrun)]
          exact ih (live.perform op budget hperform)

/-- No access is out of range, and no position fails to fit a machine word: not when a session
starts, whatever the configuration and the arguments, and not in any operation of a live session.
Carried out by raw accesses, each operation gives the same answer and leaves the same machine as
without them. -/
theorem accesses_in_range :
    (∀ config arguments console clock,
      boot config arguments console clock = some (Machine.boot config arguments console clock)) ∧
    ∀ config arguments m, Live config arguments m →
      (∀ op budget, (operation budget op).run m = .ofRun (op.perform budget m)) ∧
      ∀ operations, (session operations).run m ≠ .outOfRange := by
  refine ⟨boot_eq, fun config arguments m live => ⟨?_, ?_⟩⟩
  · exact fun op budget => operation_run_of_live live op budget
  · exact fun operations => session_ne_outOfRange operations live

/-- A session in little more space than it needs, whose end is not on a cell boundary, stays in
range under operands and a cursor that lead out of it. -/
theorem accesses_in_range_cramped :
    ∃ m,
      boot { dataSpace := 45, dataStack := 2, returnStack := 1, dictionary := 77, inputBuffer := 5 }
        ["a"] .null {} =
        some (.ok m) ∧
      (session
        [(.ask (.push 0xffffffffffffffff), 1),
          (.ask (.execute (UInt64.ofNat Primitive.pick.token)), 1),
          (.ask (.execute (UInt64.ofNat Primitive.allot.token)), 1),
          (.ask (.push 0xfffffffffffffff8), 1),
          (.ask (.execute (UInt64.ofNat Primitive.store.token)), 1),
          (.ask (.setCursor (some 40)), 1),
          (.ask .step, 1), (.ask (.readBytes 45 1), 1), (.ask .reset, 1)]).run m ≠ .outOfRange := by
  have hboot : ∃ m, Machine.boot
      { dataSpace := 45, dataStack := 2, returnStack := 1, dictionary := 77, inputBuffer := 5 }
        ["a"] .null {} = .ok m :=
    Machine.boot_isOk (by decide +kernel)
  obtain ⟨m, hm⟩ := hboot
  refine ⟨m, ?_, ?_⟩
  · exact (accesses_in_range.1 _ _ _ _).trans (congrArg some hm)
  · exact (accesses_in_range.2 _ _ m (.boot hm)).2 _

end Raw

end ThreadedForth
