import ThreadedForth.Proofs.Budget
import ThreadedForth.Proofs.Threading

/-!
# Machines without definitions

Where all definitions are primitives, executing a token comes to its end with the word that the
token names. A primitive leaves the return stack no deeper or the cursor where it was, and so does a
chain of words that invoke each other from the stack. In either case no code has been entered, and
there is nothing to step through.
-/

namespace ThreadedForth

namespace Machine

/-- A machine whose definitions are all primitives. -/
def Bare (m : Machine) : Prop :=
  ∀ token d, m.dictionary.get? token = some d → ∃ p, d.action = .primitive p

/-- A machine that has entered no code: the return stack is no deeper than it was, or the cursor is
where it was. -/
def Stays (m n : Machine) : Prop := n.returns.depth ≤ m.returns.depth ∨ n.cursor = m.cursor

end Machine

open Machine

/-- An effect that is oblivious of the control state leaves it alone. -/
theorem Effect.Oblivious.control_eq {effect : Effect} (h : effect.Oblivious) (m : Machine) :
    (effect m).machine.control = m.control := by
  have heq : effect m = (effect m).mapMachine (·.withControl m.control) := h m m.control
  rw [heq]
  cases effect m with
  | done _ n => rfl
  | halted reason n => rfl

/-- A change stays if it does so where it succeeds. -/
theorem Effect.stays_change {f : Machine → Except Fault Machine} {m : Machine}
    (h : ∀ n, f m = .ok n → m.Stays n) : m.Stays (change f m).machine := by
  unfold change attempt
  cases hf : f m with
  | ok n => exact h n hf
  | error fault => exact .inr rfl

/-- No primitive with an effect of its own enters code. -/
theorem Primitive.effect_stays {p : Primitive} {effect : Effect} (h : p.effect? = some effect)
    (m : Machine) : m.Stays (effect m).machine := by
  have hcontrols : p.usesControl = true → m.Stays (effect m).machine := by
    intro hp
    cases p <;> cases hp <;> cases h
    case toR | rFrom | rFetch =>
      refine Effect.stays_change fun n hn => ?_
      obtain ⟨pair, -, hn⟩ := bind_eq_ok.mp hn
      cases hn
      exact .inr rfl
    case exit =>
      refine Effect.stays_change fun n hn => ?_
      obtain ⟨⟨saved, returns⟩, hpop, hn⟩ := bind_eq_ok.mp hn
      cases hn
      refine .inl ?_
      simp only [Stack.depth, (Stack.pop_eq_ok.mp hpop).1, List.length_cons]
      omega
    case literal | branch =>
      refine Effect.stays_change fun n hn => ?_
      obtain ⟨operand, -, hn⟩ := bind_eq_ok.mp hn
      obtain ⟨result, -, hn⟩ := bind_eq_ok.mp hn
      cases hn
      exact .inl (Nat.le_refl _)
    case zeroBranch =>
      refine Effect.stays_change fun n hn => ?_
      obtain ⟨popped, -, hn⟩ := bind_eq_ok.mp hn
      obtain ⟨operand, -, hn⟩ := bind_eq_ok.mp hn
      dsimp only at hn
      split at hn
      · obtain ⟨target, -, hn⟩ := bind_eq_ok.mp hn
        cases hn
        exact .inl (Nat.le_refl _)
      · cases hn
        exact .inl (Nat.le_refl _)
  cases hcontrol : p.usesControl with
  | false =>
      have heq := (Primitive.effect_oblivious h hcontrol).control_eq m
      exact .inr (congrArg Control.cursor heq)
  | true => exact hcontrols hcontrol

namespace Machine

variable {host : HostRunner} {m n : Machine} {token : Cell} {d : Definition}

/-- Continuing a machine adds no definition to the primitives. -/
theorem Bare.continues (h : m.Bare) (hmn : m.Continues n) : n.Bare := by
  intro token d hd
  obtain ⟨e, he, -, haction, -⟩ := hmn.dictionary.symm.get? hd
  exact haction ▸ h token e he

/-- Code adds no definition to the primitives. -/
theorem Bare.codeInvariant (host : HostRunner) : CodeInvariant host (fun _ => True) Bare := by
  refine .of_continues (fun _ _ h hcontinues => h.continues hcontinues) ?_
  intro m token d code h hd haction
  obtain ⟨p, hp⟩ := h token d hd
  rw [hp] at haction
  cases haction

/-- Where all definitions are primitives, invoking one enters no code. -/
theorem Bare.invokeContract (m : Machine) (host : HostRunner) :
    InvokeContract host (fun _ => True)
      (fun n => n.Bare ∧ n.cursor = m.cursor ∧ n.returns = m.returns) m.Stays where
  hosted {_ token d _} h hd haction := by
    obtain ⟨p, hp⟩ := h.1 token d hd
    rw [hp] at haction
    cases haction
  refuses h _ := ⟨.inr h.2.1, trivial⟩
  effect {n _ _} h heffect := by
    have hstays := Primitive.effect_stays heffect n
    rw [Stays, h.2.1, h.2.2] at hstays
    exact Outcome.meets_of_machine hstays
  call {_ token d} h hd haction := by
    obtain ⟨p, hp⟩ := h.1 token d hd
    rw [hp] at haction
    cases haction
  take h hcells := ⟨h.1.continues (continues_of_cells hcells), h.2⟩
  enter _ h := ⟨h.1.continues (.free _ _ _ _ _), h.2⟩

/-- Carrying out a primitive ends if invoking the token on the stack does. -/
theorem carryOut_isSome {executeTop : Machine → Run Unit} {p : Primitive}
    (haction : d.action = .primitive p) (htop : (executeTop m).isSome = true) :
    (m.carryOut host executeTop d).isSome = true := by
  unfold carryOut
  rw [haction]
  dsimp only
  split
  · rfl
  · exact htop

/-- Where all definitions are primitives, invoking the token on the stack ends. -/
theorem Bare.invokeTop_isSome (h : m.Bare) (cells : List Cell) :
    (invokeTop host cells m).isSome = true := by
  induction cells generalizing m with
  | nil => rfl
  | cons token rest ih =>
      rw [invokeTop]
      split
      · rfl
      · next d hd =>
          obtain ⟨p, hp⟩ := h _ d (resolve_eq_ok.mp hd)
          exact carryOut_isSome hp (ih h)

/-- Executing a token whose invocation enters no code ends with the invocation. -/
theorem execute_eq_invoke (host : HostRunner) (budget : Nat) (hd : m.resolve token = .ok d)
    (hstays : ∀ outcome, m.invoke host token d = some outcome → m.Stays outcome.machine) :
    m.execute host budget token = m.invoke host token d := by
  rw [execute_eq, hd]
  change Run.andThen (m.invoke host token d) _ = _
  rcases hinvoke : m.invoke host token d with _ | ⟨_, n⟩ | ⟨reason, n⟩
  · rfl
  · change (if m.returns.depth < n.returns.depth then _ else _) = _
    split
    · next hdeeper =>
        rcases hstays _ hinvoke with hdepth | hcursor
        · exact absurd hdepth (Nat.not_le.mpr hdeeper)
        · exact stepUntil_of_cursor hcursor host budget
    · rfl
  · rfl

/-- Where all definitions are primitives, executing a token ends with its invocation. -/
theorem Bare.execute_eq_invoke (h : m.Bare) (host : HostRunner) (budget : Nat)
    (hd : m.resolve token = .ok d) : m.execute host budget token = m.invoke host token d :=
  Machine.execute_eq_invoke host budget hd fun outcome houtcome =>
    ((Bare.invokeContract m host).invoke ⟨h, rfl, rfl⟩ hd outcome houtcome).machine

/-- Where all definitions are primitives, executing a token ends, and always in the same way. -/
theorem Bare.execute_ends (h : m.Bare) (token : Cell) :
    ∃ outcome, ∀ host budget, m.execute host budget token = some outcome := by
  cases hd : m.resolve token with
  | error fault =>
      refine ⟨.halted (.fault fault) m, fun host budget => ?_⟩
      rw [execute_eq, hd]
      rfl
  | ok d =>
      obtain ⟨p, hp⟩ := h _ d (resolve_eq_ok.mp hd)
      have hends : (m.invoke (fun _ _ => none) token d).isSome = true :=
        carryOut_isSome hp (invokeTop_isSome (m := m.enter token) h _)
      obtain ⟨outcome, houtcome⟩ := Option.isSome_iff_exists.mp hends
      refine ⟨outcome, fun host budget => ?_⟩
      rw [h.execute_eq_invoke host budget hd]
      exact invoke_within (fun _ _ => .none _) token d m outcome houtcome

end Machine

end ThreadedForth
