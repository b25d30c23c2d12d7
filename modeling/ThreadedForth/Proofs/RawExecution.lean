import ThreadedForth.Proofs.RawWords

/-!
# Running threaded code by raw accesses

Invoking definitions and stepping through threaded code, with every access to a stack or to data
space a raw one. In a sound machine this does what invoking and stepping do, provided that host
programs are carried out by raw accesses as well. Whatever lies in data space may be run as code.
-/

namespace ThreadedForth

namespace Raw

/-- How host programs are carried out by raw accesses. -/
abbrev Runner := HostCode → Raw Machine Unit

/-- Give up for want of a budget. -/
def exhaust {α : Type} : Raw Machine α := fun _ => .exhausted

/-- Carry out a definition's action, given what the word that invokes a token from the stack
does. -/
def carryOut (host : Runner) (executeTop : Raw Machine Unit) (definition : Definition) :
    Raw Machine Unit :=
  match definition.action with
  | .primitive p => primitive executeTop p
  | .host code => host code
  | .nested => call definition.body

/-- Invoke the token on top of the data stack. Each word of a chain that does so removes a cell, so
a chain that is longer than the stack is deep is taken for an access out of range. -/
def invokeTop (host : Runner) : Nat → Raw Machine Unit
  | 0 => fun _ => .outOfRange
  | count + 1 => do
      onData (requireDepth 1)
      let token ← onData (peek 0)
      let definition ← check (·.resolve token)
      let _ ← onData take
      revise (·.enter token)
      carryOut host (invokeTop host count) definition

/-- Invoke a definition by its token. -/
def invoke (host : Runner) (token : Cell) (definition : Definition) : Raw Machine Unit := do
  revise (·.enter token)
  let depth ← look (·.data.depth)
  carryOut host (invokeTop host (depth + 1)) definition

/-- Invoke the token in the cell at the cursor, moving the cursor past that cell first. -/
def step (host : Runner) : Raw Machine Unit := do
  let slot ← operandSlot
  let token ← onSpace (loadCell slot.2)
  let definition ← check (·.resolve token)
  let next ← following slot.1
  revise fun m => { m with cursor := some next }
  invoke host token definition

/-- Step until the cursor is a given one. -/
def stepUntil (host : Runner) (cursor : Option Cell) : Nat → Raw Machine Unit
  | 0 => do if (← look Machine.cursor) = cursor then return () else exhaust
  | budget + 1 => do
      if (← look Machine.cursor) = cursor then return ()
      else
        step host
        stepUntil host cursor budget

/-- Invoke a token and, if that entered threaded code, step until the cursor is back where it
was. -/
def execute (host : Runner) (budget : Nat) (token : Cell) : Raw Machine Unit := do
  let definition ← check (·.resolve token)
  let depth ← look (·.returns.depth)
  let cursor ← look Machine.cursor
  invoke host token definition
  if depth < (← look (·.returns.depth)) then stepUntil host cursor budget else return ()

/-- Step until the machine halts. -/
def runFree (host : Runner) : Nat → Raw Machine Empty
  | 0 => exhaust
  | budget + 1 => do step host; runFree host budget

end Raw

namespace Raw

variable {config : Config} {arguments : List String} {host : HostRunner} {raw : Runner}
  {m : Machine}

/-- A machine in which nothing is forbidden to host programs. -/
abbrev Fits (config : Config) (arguments : List String) (m : Machine) : Prop :=
  m.Sound config arguments (fun _ => True) (fun _ => True)

/-- Host programs are carried out by raw accesses as they are without them. -/
structure Mirrors (config : Config) (arguments : List String) (raw : Runner) (host : HostRunner) :
    Prop where
  keeps : HostRunner.Keeps (fun _ => True) (fun _ => True) (Fits config arguments) host
  run (code : HostCode) {m : Machine} : Fits config arguments m →
    (raw code).run m = .ofRun (host code m)

/-- Such machines stay so, whatever a session does. -/
theorem invariant : Invariant (fun _ => True) (fun _ => True) (Fits config arguments) :=
  Machine.sound_invariant fun _ _ => trivial

/-- A definition that is found is gone on with. -/
theorem resolve_run {token : Cell} {d : Definition} (h : m.resolve token = .ok d) :
    (check fun n : Machine => n.resolve token).run m = .done d m :=
  check_ok h

/-- Carrying out a definition is in range if invoking the token on the stack is. -/
theorem carryOut_run (mirrors : Mirrors config arguments raw host) {executeTop : Machine → Run Unit}
    {top : Raw Machine Unit} (hm : Fits config arguments m)
    (htop : top.run m = .ofRun (executeTop m)) (d : Definition) :
    (carryOut raw top d).run m = .ofRun (m.carryOut host executeTop d) := by
  unfold carryOut Machine.carryOut
  cases d.action with
  | primitive p =>
      dsimp only
      cases heffect : p.effect? with
      | some effect => exact primitive_realizes top heffect m hm.1.addressable
      | none =>
          cases Primitive.eq_execute_of_effect? heffect
          exact htop
  | host code => exact mirrors.run code hm
  | nested => exact (call_run d.body hm.1.addressable).trans (Ending.ofRun_attempt _ _).symm

/-- Invoking the token on the stack is in range, along a chain of such words of any length. -/
theorem invokeTop_run (mirrors : Mirrors config arguments raw host) (count : Nat)
    (hm : Fits config arguments m) (hcount : m.data.depth < count) :
    (invokeTop raw count).run m = .ofRun (Machine.invokeTop host m.data.cells m) := by
  induction count generalizing m with
  | zero => exact absurd hcount (Nat.not_lt_zero _)
  | succ count ih =>
      obtain ⟨⟨cells, room⟩, hdata⟩ : ∃ data, m.data = data := ⟨_, rfl⟩
      rw [invokeTop, hdata]
      cases cells with
      | nil =>
          have hfault : m.data.underflow 1 = .stackUnderflow .data 1 0 := by rw [hdata]; rfl
          rw [Machine.invokeTop, hfault]
          exact bind_halted (onData_halted hdata rfl)
      | cons token rest =>
          rw [Machine.invokeTop, bind_done (onData_read hdata requireDepth_one),
            bind_done (onData_read hdata peek_top)]
          cases hresolve : m.resolve token with
          | error cause => exact bind_halted (check_error hresolve)
          | ok d =>
              rw [bind_done (resolve_run hresolve), bind_done (onData_done hdata take_top),
                bind_revise]
              have hcells : m.data.cells = token :: rest := by rw [hdata]
              have hpopped := invariant.enter token (invariant.take hm hcells)
              rw [hdata] at hpopped
              have hrest : rest.length < count := by
                rw [hdata] at hcount
                exact Nat.lt_of_succ_lt_succ hcount
              have hroom : m.data.room = room := by rw [hdata]
              rw [hroom]
              exact carryOut_run mirrors hpopped (ih hpopped hrest) d

/-- Invoking a definition is in range. -/
theorem invoke_run (mirrors : Mirrors config arguments raw host) (hm : Fits config arguments m)
    (token : Cell) (d : Definition) :
    (invoke raw token d).run m = .ofRun (m.invoke host token d) := by
  have hentered := invariant.enter token hm
  rw [invoke, bind_revise, bind_look]
  exact carryOut_run mirrors hentered (invokeTop_run mirrors _ hentered (Nat.lt_succ_self _)) d

/-- One step of threaded code is in range. -/
theorem step_run (mirrors : Mirrors config arguments raw host) (hm : Fits config arguments m) :
    (step raw).run m = .ofRun (m.step host) := by
  rw [step, Machine.step_eq]
  obtain ⟨slot, position, haddress, hslot, hoperand⟩ | ⟨cause, hslot, hoperand⟩ := operandSlot_run m
  · have haddressable := hm.1.addressable
    rw [bind_done hslot, hoperand, bind_done (loadOperand_run haddressable haddress),
      Machine.checked]
    dsimp only
    cases hresolve : m.resolve (m.space.cellAt position) with
    | error cause => exact bind_halted (check_error hresolve)
    | ok d =>
        rw [bind_done (resolve_run hresolve), bind_done (following_run haddressable haddress m),
          bind_revise]
        exact invoke_run mirrors (invariant.move _ hm) _ d
  · rw [bind_halted hslot, hoperand]
    rfl

/-- Stepping up to a cursor is in range. -/
theorem stepUntil_run (mirrors : Mirrors config arguments raw host) (cursor : Option Cell)
    (budget : Nat) (hm : Fits config arguments m) :
    (stepUntil raw cursor budget).run m = .ofRun (m.stepUntil host cursor budget) := by
  induction budget generalizing m with
  | zero =>
      rw [stepUntil, Machine.stepUntil, bind_look]
      by_cases hcursor : m.cursor = cursor
      · rw [if_pos hcursor, if_pos hcursor]; rfl
      · rw [if_neg hcursor, if_neg hcursor]; rfl
  | succ budget ih =>
      rw [stepUntil, Machine.stepUntil, bind_look]
      by_cases hcursor : m.cursor = cursor
      · rw [if_pos hcursor, if_pos hcursor]; rfl
      · rw [if_neg hcursor, if_neg hcursor]
        have hkeeps := (invariant.code mirrors.keeps).step hm
        have hrun := step_run mirrors hm
        rcases hstep : m.step host with _ | ⟨_, n⟩ | ⟨reason, n⟩
        · rw [hstep] at hrun; exact bind_exhausted hrun
        · rw [hstep] at hrun; exact (bind_done hrun).trans (ih (hkeeps _ hstep))
        · rw [hstep] at hrun; exact bind_halted hrun

/-- Executing a token is in range. -/
theorem execute_run (mirrors : Mirrors config arguments raw host) (budget : Nat) (token : Cell)
    (hm : Fits config arguments m) :
    (execute raw budget token).run m = .ofRun (m.execute host budget token) := by
  rw [execute, Machine.execute]
  cases hresolve : m.resolve token with
  | error cause => exact bind_halted (check_error hresolve)
  | ok d =>
      have hkeeps := (invariant.code mirrors.keeps).invoke hm hresolve
      have hrun := invoke_run mirrors hm token d
      rw [bind_done (resolve_run hresolve), bind_look, bind_look]
      dsimp only
      rcases hinvoke : m.invoke host token d with _ | ⟨_, n⟩ | ⟨reason, n⟩
      · rw [hinvoke] at hrun; exact bind_exhausted hrun
      · rw [hinvoke] at hrun
        rw [bind_done hrun, bind_look]
        dsimp only
        by_cases hdepth : m.returns.depth < n.returns.depth
        · rw [if_pos hdepth, if_pos hdepth]
          exact stepUntil_run mirrors _ _ (hkeeps _ hinvoke)
        · rw [if_neg hdepth, if_neg hdepth]
          rfl
      · rw [hinvoke] at hrun; exact bind_halted hrun

/-- A free run is in range. -/
theorem runFree_run (mirrors : Mirrors config arguments raw host) (budget : Nat)
    (hm : Fits config arguments m) : (runFree raw budget).run m = .ofRun (m.run host budget) := by
  induction budget generalizing m with
  | zero => rfl
  | succ budget ih =>
      have hkeeps := (invariant.code mirrors.keeps).step hm
      have hrun := step_run mirrors hm
      rw [runFree, Machine.run]
      rcases hstep : m.step host with _ | ⟨_, n⟩ | ⟨reason, n⟩
      · rw [hstep] at hrun; exact bind_exhausted hrun
      · rw [hstep] at hrun; exact (bind_done hrun).trans (ih (hkeeps _ hstep))
      · rw [hstep] at hrun; exact bind_halted hrun

end Raw

end ThreadedForth
