import ThreadedForth.Proofs.Invocation

/-!
# Signed division

Division rounds toward zero, so the remainder is nothing or of the dividend's sign. The quotient of
two cells is a cell again with one exception: the least number divided by minus one. The three words
of division take the same operands, under the same conditions, and leave the same quotient and
remainder.
-/

namespace ThreadedForth

namespace Cell

variable {x y : Cell}

/-- A two's-complement number is read back from the cell that holds it. -/
@[simp]
theorem signed_ofSigned (x : Int64) : (ofSigned x).signed = x := Int64.toInt64_toUInt64 x

/-- Only the zero cell reads as zero. -/
theorem toInt_signed_ne_zero (h : y ≠ 0) : y.signed.toInt ≠ 0 := by
  intro hzero
  have hsigned : y.signed = 0 := Int64.toInt_inj.mp hzero
  exact h (by rw [← UInt64.toUInt64_toInt64 y, show UInt64.toInt64 y = 0 from hsigned]; rfl)

/-- The remainder is that of the integers. -/
theorem toInt_remainder (x y : Cell) :
    (x.remainder y).signed.toInt = x.signed.toInt.tmod y.signed.toInt := by
  rw [remainder, signed_ofSigned, Int64.toInt_mod]

/-- The quotient is that of the integers, unless the least number is divided by minus one. -/
theorem toInt_quotient (h : ¬ (x.signed.toInt = -2 ^ 63 ∧ y.signed.toInt = -1)) :
    (x.quotient y).signed.toInt = x.signed.toInt.tdiv y.signed.toInt := by
  rw [quotient, signed_ofSigned]
  by_cases hx : x.signed = Int64.minValue
  · have hy : y.signed ≠ -1 := fun hy => h ⟨by rw [hx]; rfl, by rw [hy]; rfl⟩
    exact Int64.toInt_div_of_ne_right _ _ hy
  · exact Int64.toInt_div_of_ne_left _ _ hx

/-- The dividend is put together from quotient and remainder. -/
theorem quotient_mul_add_remainder (h : ¬ (x.signed.toInt = -2 ^ 63 ∧ y.signed.toInt = -1)) :
    x.signed.toInt =
      (x.quotient y).signed.toInt * y.signed.toInt + (x.remainder y).signed.toInt := by
  rw [toInt_quotient h, toInt_remainder, Int.tdiv_mul_add_tmod]

/-- The remainder is smaller than the divisor. -/
theorem natAbs_remainder_lt (x : Cell) (h : y ≠ 0) :
    (x.remainder y).signed.toInt.natAbs < y.signed.toInt.natAbs := by
  rw [toInt_remainder, Int.natAbs_tmod]
  exact Nat.mod_lt _ (Int.natAbs_pos.mpr (toInt_signed_ne_zero h))

/-- A remainder has the sign of the dividend. -/
theorem sign_remainder (x y : Cell) :
    (x.remainder y).signed.toInt = 0 ∨ (x.remainder y).signed.toInt.sign = x.signed.toInt.sign := by
  rw [toInt_remainder, ← Int.sign_eq_zero_iff_zero, Int.sign_tmod]
  split
  · exact .inl rfl
  · exact .inr rfl

/-- The least number divided by minus one is itself, and nothing remains. -/
theorem least_div_neg_one (h : x.signed.toInt = -2 ^ 63 ∧ y.signed.toInt = -1) :
    (x.quotient y).signed.toInt = -2 ^ 63 ∧ (x.remainder y).signed.toInt = 0 := by
  have hx : x.signed = Int64.minValue := Int64.toInt_inj.mp h.1
  have hy : y.signed = -1 := Int64.toInt_inj.mp h.2
  rw [quotient, remainder, hx, hy]
  decide

end Cell

namespace Stack

variable {kind : StackKind} {s : Stack kind} {below : List Cell} {x y : Cell}

/-- Division replaces the two top cells by at most as many. -/
theorem divide_eq {results : Cell → Cell → List Cell} (hs : s.toList = below ++ [x, y]) (hy : y ≠ 0)
    (hfew : (results x y).length ≤ 2) :
    s.divide results = .ok (s.holding (below ++ results x y)) := by
  rw [divide, popPair_of_toList hs]
  exact (if_neg hy).trans (pushAll_below hs (Nat.le_trans hfew (Nat.le_add_left _ _)))

/-- A zero divisor is refused. -/
theorem divide_zero (results : Cell → Cell → List Cell) (hs : s.toList = below ++ [x, 0]) :
    s.divide results = .error .divisionByZero := by
  rw [divide, popPair_of_toList hs]
  rfl

/-- Fewer than two cells are refused. -/
theorem divide_short (results : Cell → Cell → List Cell) (h : s.depth < 2) :
    s.divide results = .error (s.underflow 2) := by
  rw [divide, popPair_short h]
  rfl

end Stack

namespace Machine

variable {m : Machine} {config : Config} {arguments : List String}

section Word

variable {p : Primitive} {results : Cell → Cell → List Cell} {below : List Cell} {x y : Cell}
  (h : m.Knows p) (heffect : p.effect? = some (Effect.onData (Stack.divide results)))
include h heffect

/-- A word of division leaves its results in place of the operands. -/
theorem Knows.invokes_division (hs : m.data.toList = below ++ [x, y]) (hy : y ≠ 0)
    (hfew : (results x y).length ≤ 2) :
    m.Invokes p (.done ()
      { m with data := m.data.holding (below ++ results x y), current := some p.token }) :=
  h.invokes_data heffect (Stack.divide_eq hs hy hfew)

/-- A word of division is refused a zero divisor, and operands that are not there. -/
theorem Knows.invokes_division_refused :
    (∀ below x, m.data.toList = below ++ [x, 0] →
      m.Invokes p (.halted (.fault .divisionByZero) { m with current := some p.token })) ∧
    (m.data.toList.length < 2 →
      m.Invokes p (.halted (.fault (.stackUnderflow .data 2 m.data.toList.length))
        { m with current := some p.token })) := by
  rw [Stack.length_toList]
  exact ⟨fun below x hs => h.invokes_data_refused heffect (Stack.divide_zero results hs),
    fun hshort => h.invokes_data_refused heffect (Stack.divide_short results hshort)⟩

end Word

/-- On every stack of a live session, all three words have the same quotient and remainder, which
put the dividend together again over the integers, the remainder being smaller than the divisor and
of the sign of the dividend; only the least number divided by minus one comes to itself. A zero
divisor and a missing operand are refused by all three, and the stack is left as it was. -/
theorem Live.division_words (live : Live config arguments m) :
    (∀ below (x y : Cell), m.data.toList = below ++ [x, y] → y ≠ 0 → ∃ q r : Cell,
      m.Invokes .slashMod (.done ()
        { m with
          data := m.data.holding (below ++ [r, q]), current := some Primitive.slashMod.token }) ∧
      m.Invokes .slash (.done ()
        { m with data := m.data.holding (below ++ [q]), current := some Primitive.slash.token }) ∧
      m.Invokes .mod (.done ()
        { m with data := m.data.holding (below ++ [r]), current := some Primitive.mod.token }) ∧
      (¬ (x.signed.toInt = -2 ^ 63 ∧ y.signed.toInt = -1) →
        x.signed.toInt = q.signed.toInt * y.signed.toInt + r.signed.toInt ∧
        r.signed.toInt.natAbs < y.signed.toInt.natAbs ∧
        (r.signed.toInt = 0 ∨ r.signed.toInt.sign = x.signed.toInt.sign)) ∧
      (x.signed.toInt = -2 ^ 63 ∧ y.signed.toInt = -1 →
        q.signed.toInt = -2 ^ 63 ∧ r.signed.toInt = 0)) ∧
    ∀ p ∈ [Primitive.slashMod, .slash, .mod],
      (∀ below x, m.data.toList = below ++ [x, 0] →
        m.Invokes p (.halted (.fault .divisionByZero) { m with current := some p.token })) ∧
      (m.data.toList.length < 2 →
        m.Invokes p (.halted (.fault (.stackUnderflow .data 2 m.data.toList.length))
          { m with current := some p.token })) := by
  have hknows := fun p => live.wellFormed.knows p
  constructor
  · intro below x y hs hy
    refine ⟨x.quotient y, x.remainder y,
      (hknows .slashMod).invokes_division rfl hs hy (Nat.le_refl 2),
      (hknows .slash).invokes_division rfl hs hy (Nat.le_succ 1),
      (hknows .mod).invokes_division rfl hs hy (Nat.le_succ 1), fun hplain => ?_,
      Cell.least_div_neg_one⟩
    exact ⟨Cell.quotient_mul_add_remainder hplain, Cell.natAbs_remainder_lt x hy,
      Cell.sign_remainder x y⟩
  · simp only [List.forall_mem_cons]
    exact ⟨(hknows _).invokes_division_refused rfl, (hknows _).invokes_division_refused rfl,
      (hknows _).invokes_division_refused rfl, fun _ h => nomatch h⟩

/-- Minus seven divided by two above another cell: minus three, and minus one remains. -/
theorem Live.division_words_negative :
    ∃ m, Live {} [] m ∧ m.data.toList = [5, Cell.ofSigned (-7), 2] ∧ ∃ q r : Cell,
      q.signed.toInt = -3 ∧ r.signed.toInt = -1 ∧
      m.Invokes .slashMod (.done ()
        { m with data := m.data.holding [5, r, q], current := some Primitive.slashMod.token }) ∧
      m.Invokes .slash (.done ()
        { m with data := m.data.holding [5, q], current := some Primitive.slash.token }) ∧
      m.Invokes .mod (.done ()
        { m with data := m.data.holding [5, r], current := some Primitive.mod.token }) := by
  have hsession : afterItems {} [.literal 5, .literal (Cell.ofSigned (-7)), .literal 2]
      (fun m => m.data.toList == [5, Cell.ofSigned (-7), 2]) = true := by decide +kernel
  obtain ⟨m, live, hcells⟩ := live_of_afterItems hsession
  rw [beq_iff_eq] at hcells
  obtain ⟨q, r, hboth, hquotient, hremainder, hplain, -⟩ :=
    live.division_words.1 [5] (Cell.ofSigned (-7)) 2 hcells (by decide)
  obtain ⟨hsum, hsmall, hsign⟩ := hplain (by decide)
  rw [show (Cell.ofSigned (-7)).signed.toInt = -7 by decide] at hsum hsign
  rw [show (Cell.signed 2).toInt = 2 by decide] at hsum hsmall
  have hr : r.signed.toInt = -1 := by
    rcases hsign with hzero | hnegative
    · omega
    · have := Int.sign_eq_neg_one_iff_neg.mp hnegative
      omega
  exact ⟨m, live, hcells, q, r, by omega, hr, hboth, hquotient, hremainder⟩

end Machine

end ThreadedForth
