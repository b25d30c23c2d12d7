import ThreadedForth.Proofs.Simulation

/-!
# Runs that end do not depend on the budget

Running code takes a budget of steps and a way of carrying out host programs. If either is replaced
by one that ends in the same way wherever the first ends, then so does everything that is built on
it: a run that ends is not changed by what would only have helped it to end. In particular a larger
budget never changes an answer.
-/

namespace ThreadedForth

variable {α : Type}

/-- A run that, if it ends, ends as another one does. -/
def Run.Within (run run' : Run α) : Prop := ∀ outcome, run = some outcome → run' = some outcome

/-- A way of carrying out host programs that, where it ends, ends as another one does. -/
def HostRunner.Within (host host' : HostRunner) : Prop :=
  ∀ code m, (host code m).Within (host' code m)

namespace Run.Within

/-- A run ends as it does. -/
theorem refl (run : Run α) : run.Within run := fun _ h => h

/-- A run that does not end is within every other one. -/
theorem none (run : Run α) : Run.Within .none run := fun _ h => by cases h

/-- What follows an operation that may be refused may be replaced by what it is within. -/
theorem checked {β : Type} (m : Machine) (x : Except Fault α) {f g : α → Run β}
    (h : ∀ a, (f a).Within (g a)) : (m.checked x f).Within (m.checked x g) := by
  cases x with
  | ok a => exact h a
  | error fault => exact refl _

/-- A run and what follows it are within a run and what follows that, if they are so one by one. -/
theorem andThen {run run' : Run Unit} {f g : Machine → Run Unit} (h : run.Within run')
    (hfg : ∀ n, (f n).Within (g n)) : (run.andThen f).Within (run'.andThen g) := by
  rcases run with _ | ⟨value, n⟩ | ⟨reason, n⟩
  · exact none _
  · rw [h _ rfl]
    exact hfg n
  · rw [h _ rfl]
    exact refl _

end Run.Within

namespace Machine

variable {host host' : HostRunner}

/-- Carrying out a definition ends as it does with a host that ends more often. -/
theorem carryOut_within (h : host.Within host') {executeTop executeTop' : Machine → Run Unit}
    (htop : ∀ m, (executeTop m).Within (executeTop' m)) (d : Definition) (m : Machine) :
    (m.carryOut host executeTop d).Within (m.carryOut host' executeTop' d) := by
  unfold carryOut
  split
  · split
    · exact .refl _
    · exact htop m
  · exact h _ m
  · exact .refl _

/-- Invoking the token on the stack, along a chain of words that do so, ends as it does with a host
that ends more often. -/
theorem invokeTop_within (h : host.Within host') (cells : List Cell) (m : Machine) :
    (invokeTop host cells m).Within (invokeTop host' cells m) := by
  induction cells generalizing m with
  | nil => exact .refl _
  | cons token rest ih =>
      rw [invokeTop, invokeTop]
      split
      · exact .refl _
      · exact carryOut_within h ih _ _

/-- Invoking a definition ends as it does with a host that ends more often. -/
theorem invoke_within (h : host.Within host') (token : Cell) (d : Definition) (m : Machine) :
    (m.invoke host token d).Within (m.invoke host' token d) :=
  carryOut_within h (fun n => invokeTop_within h n.data.cells n) d _

/-- One step ends as it does with a host that ends more often. -/
theorem step_within (h : host.Within host') (m : Machine) :
    (m.step host).Within (m.step host') := by
  rw [step_eq, step_eq]
  apply Run.Within.checked
  intro operand
  apply Run.Within.checked
  intro d
  exact invoke_within h operand.2 d _

/-- Steps that arrive at a cursor arrive there in the same way with a larger budget. -/
theorem stepUntil_within (h : host.Within host') (cursor : Option Cell) {budget budget' : Nat}
    (hle : budget ≤ budget') (m : Machine) :
    (m.stepUntil host cursor budget).Within (m.stepUntil host' cursor budget') := by
  induction budget generalizing budget' m with
  | zero =>
      unfold stepUntil
      by_cases hcursor : m.cursor = cursor
      · simp only [if_pos hcursor]
        exact .refl _
      · simp only [if_neg hcursor]
        exact .none _
  | succ budget ih =>
      obtain ⟨budget', rfl⟩ :=
        Nat.exists_eq_add_of_le' (Nat.le_trans (Nat.le_add_left 1 budget) hle)
      rw [stepUntil_succ, stepUntil_succ]
      split
      · exact .refl _
      · exact (step_within h m).andThen fun n => ih (Nat.le_of_add_le_add_right hle) n

/-- Executing a token ends in the same way with a larger budget. -/
theorem execute_within (h : host.Within host') {budget budget' : Nat} (hle : budget ≤ budget')
    (token : Cell) (m : Machine) :
    (m.execute host budget token).Within (m.execute host' budget' token) := by
  rw [execute_eq, execute_eq]
  apply Run.Within.checked
  intro d
  apply (invoke_within h token d m).andThen
  intro n
  split
  · exact stepUntil_within h m.cursor hle n
  · exact .refl _

/-- A free run ends in the same way with a larger budget. -/
theorem run_within (h : host.Within host') {budget budget' : Nat} (hle : budget ≤ budget')
    (m : Machine) : (m.run host budget).Within (m.run host' budget') := by
  induction budget generalizing budget' m with
  | zero => exact .none _
  | succ budget ih =>
      obtain ⟨budget', rfl⟩ :=
        Nat.exists_eq_add_of_le' (Nat.le_trans (Nat.le_add_left 1 budget) hle)
      have hstep := step_within h m
      rw [run, run]
      rcases hfirst : m.step host with _ | ⟨value, n⟩ | ⟨reason, n⟩
      · exact .none _
      · rw [hstep _ hfirst]
        exact ih (Nat.le_of_add_le_add_right hle) n
      · rw [hstep _ hfirst]
        exact .refl _

end Machine

/-- A request ends in the same way with a larger budget. -/
theorem Request.perform_within {host host' : HostRunner} (h : host.Within host')
    {budget budget' : Nat} (hle : budget ≤ budget') (r : Request) (m : Machine) :
    (r.perform host budget m).Within (r.perform host' budget' m) := by
  cases r with
  | execute token => exact Machine.execute_within h hle token m
  | step => exact Machine.step_within h m
  | run => exact Machine.run_within h hle m
  | _ => exact .refl _

namespace HostCode

/-- A host program ends in the same way if the answers to its requests do. -/
theorem runWith_within {answer answer' : (r : Request) → Machine → Run r.Reply}
    (h : ∀ r m, (answer r m).Within (answer' r m)) (code : HostCode) (m : Machine) :
    (code.runWith answer m).Within (code.runWith answer' m) := by
  induction code generalizing m with
  | done result => cases result <;> exact .refl _
  | ask r next ih =>
      rw [runWith, runWith]
      rcases hreply : answer r m with _ | ⟨reply, n⟩ | ⟨reason, n⟩
      · exact .none _
      · rw [h r m _ hreply]
        exact ih (.ok reply) n
      · rw [h r m _ hreply]
        exact ih (.error reason) n
  | define name body next _ ih =>
      rw [runWith, runWith]
      split
      · exact ih _ _
      · exact ih _ _

/-- Host programs end in the same way with a larger budget. -/
theorem run_within {budget budget' : Nat} (hle : budget ≤ budget') :
    (run budget).Within (run budget') := by
  induction budget generalizing budget' with
  | zero => exact fun code m => .none _
  | succ budget ih =>
      obtain ⟨budget', rfl⟩ :=
        Nat.exists_eq_add_of_le' (Nat.le_trans (Nat.le_add_left 1 budget) hle)
      have hle' := Nat.le_of_add_le_add_right hle
      exact fun code m => runWith_within (fun r n => r.perform_within (ih hle') hle' n) code m

end HostCode

/-- A larger budget does not change the answer to an operation. -/
theorem Operation.perform_within {budget budget' : Nat} (hle : budget ≤ budget')
    (operation : Operation) (m : Machine) :
    (operation.perform budget m).Within (operation.perform budget' m) := by
  cases operation with
  | ask r => exact r.perform_within (HostCode.run_within hle) hle m
  | define name body => exact .refl _

end ThreadedForth
