import ThreadedForth.Proofs.Invocation

/-!
# Derived stack words and their expansions

Several of the words that rearrange the stacks can be spelled out with others. A word checks depth
and room for its whole effect at once, and its expansion checks them for one word at a time, so that
the two can be refused for different reasons. They nevertheless succeed on the same stacks, with the
same results. As such words touch nothing but the stacks, the host that goes through them does to
the machine what their rearrangements do in turn to its two stacks, and every law is a law of
stacks. A law is proved by cases on the depths and rooms that its words tell apart, in each of which
both sides compute.
-/

namespace ThreadedForth

/-- A word whose whole effect is to rearrange the two stacks. -/
structure Shuffle where
  word : Primitive
  rearrange : Stack .data → Stack .returns → Except Fault (Stack .data × Stack .returns)
  effect_eq : word.effect? = some (Effect.onStacks rearrange)

namespace Shuffle

/-- A change of the data stack alone is a change of both stacks that passes the return stack on. -/
theorem onData_eq (f : Stack .data → Except Fault (Stack .data)) :
    Effect.onData f = Effect.onStacks fun data returns => (f data).map (·, returns) := by
  unfold Effect.onData Effect.onStacks
  congr 1
  funext m
  dsimp only
  cases f m.data <;> rfl

/-- A word that rearranges the data stack alone. -/
def ofData (p : Primitive) (f : Stack .data → Except Fault (Stack .data))
    (h : p.effect? = some (Effect.onData f)) : Shuffle :=
  ⟨p, fun data returns => (f data).map (·, returns), h.trans (congrArg some (onData_eq f))⟩

-- The words of this kind, each under the name of its rearrangement.
def drop : Shuffle := ofData .drop Stack.drop rfl
def dup : Shuffle := ofData .dup Stack.dup rfl
def copySecond : Shuffle := ofData .over Stack.copySecond rfl
def swap : Shuffle := ofData .swap Stack.swap rfl
def rot : Shuffle := ofData .rot Stack.rot rfl
def dupNonzero : Shuffle := ofData .questionDup Stack.dupNonzero rfl
def nip : Shuffle := ofData .nip Stack.nip rfl
def tuck : Shuffle := ofData .tuck Stack.tuck rfl
def dupPair : Shuffle := ofData .twoDup Stack.dupPair rfl
def dropPair : Shuffle := ofData .twoDrop Stack.dropPair rfl
def toReturn : Shuffle := ⟨.toR, Stack.toReturn, rfl⟩
def fromReturn : Shuffle := ⟨.rFrom, Stack.fromReturn, rfl⟩
def copyReturn : Shuffle := ⟨.rFetch, Stack.copyReturn, rfl⟩

/-- Rearrange the stacks in turn, up to the first refusal. -/
def inTurn : List Shuffle → Stack .data → Stack .returns → Option (Stack .data × Stack .returns)
  | [], data, returns => some (data, returns)
  | shuffle :: rest, data, returns =>
      (shuffle.rearrange data returns).toOption.bind fun after => inTurn rest after.1 after.2

/-- The host's way of going through the words. -/
def items (shuffles : List Shuffle) : List Item := shuffles.map fun shuffle => .word shuffle.word

section Host

open Item

variable {m n : Machine} {data : Stack .data} {returns : Stack .returns} {fault : Fault}
  {shuffle : Shuffle}

/-- A word that can rearrange the stacks leaves the rearranged ones. -/
theorem invokes_done (h : m.Knows shuffle.word)
    (hf : shuffle.rearrange m.data m.returns = .ok (data, returns)) :
    m.Invokes shuffle.word
      (.done () { m with
        data := data, returns := returns, current := some shuffle.word.token }) := by
  refine h.invokes_done shuffle.effect_eq ?_
  dsimp only
  rw [hf]
  rfl

/-- A word that cannot rearrange the stacks is refused. -/
theorem invokes_refused (h : m.Knows shuffle.word)
    (hf : shuffle.rearrange m.data m.returns = .error fault) :
    m.Invokes shuffle.word
      (.halted (.fault fault) { m with current := some shuffle.word.token }) := by
  refine h.invokes_refused shuffle.effect_eq ?_
  dsimp only
  rw [hf]
  rfl

/-- Going through the words with success leaves the stacks that are rearranged in turn, and changes
nothing else. -/
theorem leads_iff (host : HostRunner) (budget : Nat) (shuffles : List Shuffle)
    (hknows : ∀ p, m.Knows p) :
    Leads host budget (items shuffles) m n ↔
      ∃ data returns, inTurn shuffles m.data m.returns = some (data, returns) ∧
        { m with data := data, returns := returns, current := none } =
          { n with current := none } := by
  induction shuffles generalizing m with
  | nil =>
      have hnothing : Leads host budget (items []) m m := ⟨m.current, rfl⟩
      rw [hnothing.iff]
      constructor
      · intro h
        exact ⟨m.data, m.returns, rfl, h⟩
      · rintro ⟨_, _, hturn, h⟩
        cases hturn
        exact h
  | cons shuffle rest ih =>
      cases hf : shuffle.rearrange m.data m.returns with
      | error fault =>
          have hhalted :=
            performAll_halted host budget (items rest) (invokes_refused (hknows shuffle.word) hf)
          refine iff_of_false (not_leads hhalted) ?_
          rintro ⟨_, _, hturn, -⟩
          rw [inTurn, hf] at hturn
          cases hturn
      | ok after =>
          obtain ⟨data, returns⟩ := after
          have hgoes :=
            performAll_word host budget (items rest) (invokes_done (hknows shuffle.word) hf)
          rw [inTurn, hf, Leads,
            show items (shuffle :: rest) = .word shuffle.word :: items rest from rfl, hgoes]
          exact ih hknows

/-- Words that rearrange the stacks alike lead to the same machines. -/
theorem leads_congr (host : HostRunner) (budget : Nat) (hknows : ∀ p, m.Knows p)
    {shuffles others : List Shuffle}
    (h : inTurn shuffles m.data m.returns = inTurn others m.data m.returns) :
    Leads host budget (items shuffles) m n ↔ Leads host budget (items others) m n := by
  rw [leads_iff host budget shuffles hknows, leads_iff host budget others hknows, h]

/-- Words that bring the stacks back wherever the first of them succeeds lead back to the
machine. -/
theorem leads_self (host : HostRunner) (budget : Nat) (hknows : ∀ p, m.Knows p) (shuffle : Shuffle)
    (rest : List Shuffle)
    (h : ∀ {data returns after}, inTurn [shuffle] data returns = some after →
      inTurn (shuffle :: rest) data returns = some (data, returns))
    (hfirst : ∃ n, Leads host budget (items [shuffle]) m n) :
    Leads host budget (items (shuffle :: rest)) m m := by
  obtain ⟨n, hn⟩ := hfirst
  obtain ⟨data, returns, hturn, -⟩ := (leads_iff host budget [shuffle] hknows).mp hn
  exact (leads_iff host budget _ hknows).mpr ⟨m.data, m.returns, h hturn, rfl⟩

end Host

section Laws

variable {data : Stack .data} {returns : Stack .returns} {after : Stack .data × Stack .returns}

theorem inTurn_tuck : inTurn [tuck] data returns = inTurn [swap, copySecond] data returns := by
  obtain ⟨_ | ⟨y, _ | ⟨x, rest⟩⟩, _ | room⟩ := data <;> rfl

theorem inTurn_nip : inTurn [nip] data returns = inTurn [swap, drop] data returns := by
  obtain ⟨_ | ⟨y, _ | ⟨x, rest⟩⟩, room⟩ := data <;> rfl

/-- Room for one copy only is not enough for either: the pair is refused at once, and its second
half after the first. -/
theorem inTurn_dupPair :
    inTurn [dupPair] data returns = inTurn [copySecond, copySecond] data returns := by
  obtain ⟨_ | ⟨y, _ | ⟨x, rest⟩⟩, _ | _ | room⟩ := data <;> rfl

theorem inTurn_dropPair : inTurn [dropPair] data returns = inTurn [drop, drop] data returns := by
  obtain ⟨_ | ⟨y, _ | ⟨x, rest⟩⟩, room⟩ := data <;> rfl

theorem inTurn_dupNonzero (h : data.toList.getLast? ≠ some 0) :
    inTurn [dupNonzero] data returns = inTurn [dup] data returns := by
  obtain ⟨_ | ⟨x, rest⟩, room⟩ := data
  · rfl
  · have hx : x ≠ 0 := by simpa [Stack.toList] using h
    simp [inTurn, dupNonzero, dup, ofData, Stack.dupNonzero, Stack.dup, Stack.pop, bind,
      Except.bind, hx]

theorem inTurn_dup_drop (h : inTurn [dup] data returns = some after) :
    inTurn [dup, drop] data returns = some (data, returns) := by
  obtain ⟨_ | ⟨x, rest⟩, _ | room⟩ := data <;> first | rfl | cases h

theorem inTurn_swap_swap (h : inTurn [swap] data returns = some after) :
    inTurn [swap, swap] data returns = some (data, returns) := by
  obtain ⟨_ | ⟨y, _ | ⟨x, rest⟩⟩, room⟩ := data <;> first | rfl | cases h

theorem inTurn_rot_rot_rot (h : inTurn [rot] data returns = some after) :
    inTurn [rot, rot, rot] data returns = some (data, returns) := by
  obtain ⟨_ | ⟨z, _ | ⟨y, _ | ⟨x, rest⟩⟩⟩, room⟩ := data <;> first | rfl | cases h

theorem inTurn_copySecond_drop (h : inTurn [copySecond] data returns = some after) :
    inTurn [copySecond, drop] data returns = some (data, returns) := by
  obtain ⟨_ | ⟨y, _ | ⟨x, rest⟩⟩, _ | room⟩ := data <;> first | rfl | cases h

theorem inTurn_tuck_drop_swap (h : inTurn [tuck] data returns = some after) :
    inTurn [tuck, drop, swap] data returns = some (data, returns) := by
  obtain ⟨_ | ⟨y, _ | ⟨x, rest⟩⟩, _ | room⟩ := data <;> first | rfl | cases h

theorem inTurn_toReturn_fromReturn (h : inTurn [toReturn] data returns = some after) :
    inTurn [toReturn, fromReturn] data returns = some (data, returns) := by
  obtain ⟨_ | ⟨x, rest⟩, room⟩ := data
  · cases h
  · obtain ⟨saved, _ | free⟩ := returns <;> first | rfl | cases h

/-- Copying a cell between the stacks takes room for one copy, and the longer way for two. -/
theorem inTurn_fromReturn_dup_toReturn :
    inTurn [fromReturn, dup, toReturn] data returns =
      if 2 ≤ data.room then inTurn [copyReturn] data returns else none := by
  obtain ⟨cells, _ | _ | room⟩ := data <;> obtain ⟨_ | ⟨x, saved⟩, free⟩ := returns <;> rfl

end Laws

end Shuffle

namespace Machine

open Item Shuffle

variable {m : Machine} {config : Config} {arguments : List String}

/-- In every live session a derived word and its expansion succeed on the same stacks and lead to
the same machine, apart from the current word. The words that undo each other bring the machine back
wherever the first of them succeeds. Copying a cell from the return stack does the same as moving
it, copying it and moving one copy back, where there is room for both copies. -/
theorem Live.words_expand (live : Live config arguments m) (host : HostRunner) (budget : Nat) :
    (∀ n, (Leads host budget [.word .tuck] m n ↔ Leads host budget [.word .swap, .word .over] m n) ∧
      (Leads host budget [.word .nip] m n ↔ Leads host budget [.word .swap, .word .drop] m n) ∧
      (Leads host budget [.word .twoDup] m n ↔ Leads host budget [.word .over, .word .over] m n) ∧
      (Leads host budget [.word .twoDrop] m n ↔ Leads host budget [.word .drop, .word .drop] m n) ∧
      (m.data.toList.getLast? ≠ some 0 →
        (Leads host budget [.word .questionDup] m n ↔ Leads host budget [.word .dup] m n)) ∧
      (Leads host budget [.word .rFrom, .word .dup, .word .toR] m n ↔
        2 ≤ m.data.room ∧ Leads host budget [.word .rFetch] m n)) ∧
    (∀ words ∈ [(Primitive.dup, [Primitive.drop]), (.swap, [.swap]), (.rot, [.rot, .rot]),
      (.over, [.drop]),
        (.tuck, [.drop, .swap]), (.toR, [.rFrom])],
      (∃ n, Leads host budget [.word words.1] m n) →
        Leads host budget (.word words.1 :: words.2.map .word) m m) := by
  have hknows := fun p => live.wellFormed.knows p
  refine ⟨fun n => ⟨leads_congr host budget hknows inTurn_tuck,
    leads_congr host budget hknows inTurn_nip, leads_congr host budget hknows inTurn_dupPair,
    leads_congr host budget hknows inTurn_dropPair,
    fun htop => leads_congr host budget hknows (inTurn_dupNonzero htop), ?_⟩, ?_⟩
  · change Leads host budget (items [fromReturn, dup, toReturn]) m n ↔
      _ ∧ Leads host budget (items [copyReturn]) m n
    rw [leads_iff host budget _ hknows, leads_iff host budget _ hknows,
      inTurn_fromReturn_dup_toReturn]
    by_cases hroom : 2 ≤ m.data.room
    · simp only [hroom, if_true, true_and]
    · simp [hroom]
  · simp only [List.forall_mem_cons, List.not_mem_nil, false_implies, implies_true, and_true]
    exact ⟨leads_self host budget hknows dup [drop] inTurn_dup_drop,
      leads_self host budget hknows swap [swap] inTurn_swap_swap,
      leads_self host budget hknows rot [rot, rot] inTurn_rot_rot_rot,
      leads_self host budget hknows copySecond [drop] inTurn_copySecond_drop,
      leads_self host budget hknows tuck [drop, swap] inTurn_tuck_drop_swap,
      leads_self host budget hknows toReturn [fromReturn] inTurn_toReturn_fromReturn⟩

/-- With room for one more cell, a copy of one cell succeeds either way, and a copy of two is
refused either way. -/
theorem Live.words_expand_tight :
    ∃ m n k, Live { dataStack := 3, returnStack := 2 } [] m ∧ m.data.toList = [5, 7] ∧
      m.returns.toList = [9] ∧
      n.data.toList = [7, 5, 7] ∧ Leads (HostCode.run 0) 0 [.word .tuck] m n ∧
      Leads (HostCode.run 0) 0 [.word .swap, .word .over] m n ∧
      k.data.toList = [5, 7, 7] ∧ Leads (HostCode.run 0) 0 [.word .questionDup] m k ∧
      Leads (HostCode.run 0) 0 [.word .dup] m k ∧
      (∀ o, ¬ Leads (HostCode.run 0) 0 [.word .twoDup] m o ∧
        ¬ Leads (HostCode.run 0) 0 [.word .over, .word .over] m o) ∧
      Leads (HostCode.run 0) 0 [.word .tuck, .word .drop, .word .swap] m m ∧
      Leads (HostCode.run 0) 0 [.word .toR, .word .rFrom] m m := by
  have hsession : afterItems { dataStack := 3, returnStack := 2 }
      [.literal 9, .word .toR, .literal 5, .literal 7] (fun m =>
        m.data.toList == [5, 7] && m.returns.toList == [9] &&
          (Item.performAll (HostCode.run 0) 0 [.word .tuck] m).endsWith none
            (·.data.toList == [7, 5, 7]) &&
          (Item.performAll (HostCode.run 0) 0 [.word .questionDup] m).endsWith none
            (·.data.toList == [5, 7, 7]) &&
          (Item.performAll (HostCode.run 0) 0 [.word .toR] m).endsWith none
            (·.returns.toList == [9, 7]) &&
          (Item.performAll (HostCode.run 0) 0 [.word .twoDup] m).endsWith
            (some (.fault (.stackOverflow .data 3))) fun _ => true) = true := by decide +kernel
  obtain ⟨m, live, hchecks⟩ := live_of_afterItems hsession
  simp only [Bool.and_eq_true, beq_iff_eq] at hchecks
  obtain ⟨⟨⟨⟨⟨hdata, hreturns⟩, htuck⟩, hcopy⟩, hsave⟩, hpair⟩ := hchecks
  obtain ⟨_, n, hn, hncells⟩ := Run.exists_done htuck
  obtain ⟨_, k, hk, hkcells⟩ := Run.exists_done hcopy
  obtain ⟨_, s, hs, -⟩ := Run.exists_done hsave
  obtain ⟨o, ho, -⟩ := Run.exists_halted hpair
  obtain ⟨hderived, hundone⟩ := live.words_expand (HostCode.run 0) 0
  have hleads : Leads (HostCode.run 0) 0 [.word .tuck] m n := ⟨n.current, hn⟩
  have hcopies : Leads (HostCode.run 0) 0 [.word .questionDup] m k := ⟨k.current, hk⟩
  have htop : m.data.toList.getLast? ≠ some 0 := by rw [hdata]; decide
  refine ⟨m, n, k, live, hdata, hreturns, eq_of_beq hncells, hleads, (hderived n).1.mp hleads,
    eq_of_beq hkcells, hcopies, ((hderived k).2.2.2.2.1 htop).mp hcopies, fun o => ?_,
    hundone (.tuck, [.drop, .swap]) (by simp) ⟨n, hleads⟩,
    hundone (.toR, [.rFrom]) (by simp) ⟨s, s.current, hs⟩⟩
  exact ⟨not_leads ho, fun h => not_leads ho ((hderived o).2.2.1.mpr h)⟩

end Machine

end ThreadedForth
