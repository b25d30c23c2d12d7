import ThreadedForth.Proofs.Branching
import ThreadedForth.Proofs.Evaluation

/-!
# Shifts, orders and flags

Shift counts are kept in 32 bits on the way, and yet shifting by any cell multiplies or divides by
that power of two. The two orders of cells, as two's-complement and as unsigned numbers, are the
same up to the highest bit. Comparisons leave all bits set or none, and on such flags the words that
work bit by bit are the connectives of truth values: whatever is written in postfix out of
comparisons and connectives leaves the flag of the condition that it expresses.
-/

namespace ThreadedForth

namespace Cell

/-- A count of 32 bits is small exactly when the cell it stands for is. -/
theorem shiftCount_lt_iff (u : Cell) : u.shiftCount < 64 ↔ u.toNat < 64 := by
  rw [UInt32.lt_iff_toNat_lt, shiftCount]
  change _ < 64 ↔ _
  split
  · next hfits => rw [UInt64.toNat_toUInt32, Nat.mod_eq_of_lt hfits]
  · next hlarge =>
      exact iff_of_false (by decide) fun hsmall => hlarge (Nat.lt_trans hsmall (by decide))

/-- A small count stands for itself. -/
theorem toUInt64_shiftCount {u : Cell} (h : u.toNat < 64) : u.shiftCount.toUInt64 = u := by
  have hfits : u.toNat < UInt32.size := Nat.lt_trans h (by decide)
  rw [shiftCount, if_pos hfits, ← UInt64.toNat_inj, UInt32.toNat_toUInt64, UInt64.toNat_toUInt32]
  exact Nat.mod_eq_of_lt hfits

/-- Shifting left multiplies by a power of two, up to wrapping around. -/
theorem toNat_shiftLeft (x u : Cell) : (x.shiftLeft u).toNat = x.toNat * 2 ^ u.toNat % 2 ^ 64 := by
  rw [shiftLeft, shiftLeft?]
  by_cases h : u.toNat < 64
  · rw [if_pos (u.shiftCount_lt_iff.mpr h), toUInt64_shiftCount h, Option.getD_some,
      UInt64.toNat_shiftLeft, Nat.mod_eq_of_lt h, Nat.shiftLeft_eq]
  · have hdvd : 2 ^ 64 ∣ x.toNat * 2 ^ u.toNat :=
      Nat.dvd_mul_left_of_dvd (Nat.pow_dvd_pow 2 (Nat.le_of_not_lt h)) x.toNat
    rw [if_neg (u.shiftCount_lt_iff.not.mpr h), Option.getD_none, Nat.mod_eq_zero_of_dvd hdvd]
    rfl

/-- Shifting right divides by a power of two. -/
theorem toNat_shiftRight (x u : Cell) : (x.shiftRight u).toNat = x.toNat / 2 ^ u.toNat := by
  rw [shiftRight, shiftRight?]
  by_cases h : u.toNat < 64
  · rw [if_pos (u.shiftCount_lt_iff.mpr h), toUInt64_shiftCount h, Option.getD_some,
      UInt64.toNat_shiftRight, Nat.mod_eq_of_lt h, Nat.shiftRight_eq_div_pow]
  · have hsmall : x.toNat < 2 ^ u.toNat :=
      Nat.lt_of_lt_of_le x.toNat_lt (Nat.pow_le_pow_right (by decide) (Nat.le_of_not_lt h))
    rw [if_neg (u.shiftCount_lt_iff.not.mpr h), Option.getD_none, Nat.div_eq_of_lt hsmall]
    rfl

/-- Nothing is left once all bits are shifted out. -/
theorem shift_eq_zero {u : Cell} (h : 64 ≤ u.toNat) (x : Cell) :
    x.shiftLeft u = 0 ∧ x.shiftRight u = 0 := by
  have hlarge : ¬ u.shiftCount < 64 := u.shiftCount_lt_iff.not.mpr (Nat.not_lt.mpr h)
  rw [shiftLeft, shiftLeft?, shiftRight, shiftRight?, if_neg hlarge, if_neg hlarge]
  exact ⟨rfl, rfl⟩

/-- Flipping the highest bit moves a cell by half of the range. -/
theorem toNat_xor_highest (x : Cell) :
    (x ^^^ 0x8000000000000000).toNat = (x.toNat + 2 ^ 63) % 2 ^ 64 := by
  have hx := x.toNat_lt
  have hhigh := Nat.xor_div_two_pow (a := x.toNat) (b := 2 ^ 63) (n := 63)
  have hlow := Nat.xor_mod_two_pow (a := x.toNat) (b := 2 ^ 63) (n := 63)
  rw [Nat.mod_self, Nat.xor_zero] at hlow
  rw [UInt64.toNat_xor]
  change x.toNat ^^^ 2 ^ 63 = _
  obtain hclear | hset : x.toNat / 2 ^ 63 = 0 ∨ x.toNat / 2 ^ 63 = 1 := by omega
  · rw [hclear, show 0 ^^^ 2 ^ 63 / 2 ^ 63 = 1 from rfl] at hhigh
    omega
  · rw [hset, show 1 ^^^ 2 ^ 63 / 2 ^ 63 = 0 from rfl] at hhigh
    omega

/-- The order of the two's-complement numbers is the unsigned one of the cells with the highest bit
flipped. -/
theorem toInt_signed_lt_iff (x y : Cell) :
    x.signed.toInt < y.signed.toInt ↔
    (x ^^^ 0x8000000000000000).toNat < (y ^^^ 0x8000000000000000).toNat := by
  have hx := x.toNat_lt
  have hy := y.toNat_lt
  rw [toInt_signed, toInt_signed, toNat_xor_highest, toNat_xor_highest]
  split <;> split <;> omega

/-- A flag has all bits set, or none. -/
theorem toNat_ofFlag (flag : Bool) : (ofFlag flag).toNat = if flag then 2 ^ 64 - 1 else 0 := by
  cases flag <;> rfl

/-- The bitwise conjunction of two flags is the flag of their conjunction. -/
theorem and_ofFlag (flag other : Bool) : ofFlag flag &&& ofFlag other = ofFlag (flag && other) := by
  cases flag <;> cases other <;> rfl

/-- The bitwise disjunction of two flags is the flag of their disjunction. -/
theorem or_ofFlag (flag other : Bool) : ofFlag flag ||| ofFlag other = ofFlag (flag || other) := by
  cases flag <;> cases other <;> rfl

/-- The complement of a flag is the flag of its negation. -/
theorem not_ofFlag (flag : Bool) : ~~~ ofFlag flag = ofFlag (!flag) := by
  cases flag <;> rfl

/-- The flag of a negative number is its highest bit, spread over the cell. -/
theorem ofFlag_negative (x : Cell) : ofFlag (x.signed.toInt < 0) = 0 - x.shiftRight 63 := by
  have hx := x.toNat_lt
  have hvalue := x.toInt_signed
  rw [← UInt64.toNat_inj, toNat_ofFlag, UInt64.toNat_sub, toNat_shiftRight]
  change _ = (2 ^ 64 - x.toNat / 2 ^ 63 + 0) % 2 ^ 64
  by_cases hnegative : x.signed.toInt < 0
  · rw [decide_eq_true hnegative, if_pos rfl]
    split at hvalue <;> omega
  · rw [decide_eq_false hnegative, if_neg Bool.false_ne_true]
    split at hvalue <;> omega

end Cell

/-- The comparisons of two cells. -/
inductive Comparison where
  | equal | differ | less | greater | lessUnsigned

namespace Comparison

/-- The word of a comparison. -/
def word : Comparison → Primitive
  | equal => .equals
  | differ => .notEquals
  | less => .less
  | greater => .greater
  | lessUnsigned => .uLess

/-- Whether a comparison holds of two cells, read as two's-complement or as unsigned numbers. -/
def holds : Comparison → Cell → Cell → Bool
  | equal, x, y => x = y
  | differ, x, y => x ≠ y
  | less, x, y => x.signed.toInt < y.signed.toInt
  | greater, x, y => y.signed.toInt < x.signed.toInt
  | lessUnsigned, x, y => x.toNat < y.toNat

/-- The word of a comparison leaves its flag. -/
theorem effect_eq (c : Comparison) :
    c.word.effect? = some (Effect.onData (Stack.binary fun x y => Cell.ofFlag (c.holds x y))) := by
  have hsame {f g : Cell → Cell → Cell} (h : ∀ x y, f x y = g x y) :
      some (Effect.onData (Stack.binary f)) = some (Effect.onData (Stack.binary g)) := by
        rw [funext₂ h]
  have hless : ∀ x y, Cell.less x y = Cell.ofFlag (less.holds x y) := by
    intro x y
    simp only [Cell.less, holds, Int64.lt_iff_toInt_lt]
  cases c with
  | equal => rfl
  | differ => exact hsame fun x y => congrArg Cell.ofFlag (decide_not (p := x = y)).symm
  | less => exact hsame hless
  | greater => exact hsame fun x y => hless y x
  | lessUnsigned => rfl

/-- The two orders are the same up to the highest bit. -/
theorem less_holds_eq (x y : Cell) :
    less.holds x y = lessUnsigned.holds (x ^^^ 0x8000000000000000) (y ^^^ 0x8000000000000000) :=
  decide_eq_decide.mpr (x.toInt_signed_lt_iff y)

end Comparison

/-- The tests of one cell. -/
inductive Test where
  | zero | negative

namespace Test

/-- The word of a test. -/
def word : Test → Primitive
  | zero => .zeroEquals
  | negative => .zeroLess

/-- Whether a cell passes a test, read as a two's-complement number. -/
def holds : Test → Cell → Bool
  | zero, x => x = 0
  | negative, x => x.signed.toInt < 0

/-- The word of a test leaves its flag. -/
theorem effect_eq (t : Test) :
    t.word.effect? = some (Effect.onData (Stack.unary fun x => Cell.ofFlag (t.holds x))) := by
  cases t with
  | zero => rfl
  | negative => simp only [word, Primitive.effect?, Cell.less, Int64.lt_iff_toInt_lt]; rfl

end Test

/-- What can be said of cells by comparisons, tests and connectives. -/
inductive Condition where
  | compare (c : Comparison) (x y : Cell)
  | test (t : Test) (x : Cell)
  | both (left right : Condition)
  | either (left right : Condition)
  | negated (c : Condition)

namespace Condition

/-- Whether a condition holds. -/
def holds : Condition → Bool
  | compare c x y => c.holds x y
  | test t x => t.holds x
  | both left right => left.holds && right.holds
  | either left right => left.holds || right.holds
  | negated c => !c.holds

/-- A condition in postfix. -/
def items : Condition → List Item
  | compare c x y => [.literal x, .literal y, .word c.word]
  | test t x => [.literal x, .word t.word]
  | both left right => left.items ++ right.items ++ [.word .and]
  | either left right => left.items ++ right.items ++ [.word .or]
  | negated c => c.items ++ [.word .invert]

/-- The largest number of cells that are pending while a condition is worked out. -/
def height : Condition → Nat
  | compare _ _ _ => 2
  | test _ _ => 1
  | both left right | either left right => max left.height (right.height + 1)
  | negated c => c.height

open Item

/-- A condition leaves its flag. -/
theorem yields (c : Condition) (host : HostRunner) (budget : Nat) :
    Yields host budget c.items c.height (Cell.ofFlag c.holds) := by
  induction c with
  | compare c x y => exact (yields_literal x).combine (yields_literal y) c.effect_eq
  | test t x => exact (yields_literal x).map t.effect_eq
  | both left right hleft hright =>
      rw [holds, ← Cell.and_ofFlag]
      exact hleft.combine hright rfl
  | either left right hleft hright =>
      rw [holds, ← Cell.or_ofFlag]
      exact hleft.combine hright rfl
  | negated c hc =>
      rw [holds, ← Cell.not_ofFlag]
      exact hc.map rfl

end Condition

namespace Machine

open Item

variable {m : Machine} {config : Config} {arguments : List String}

/-- In every live session, shifting by any cell multiplies by that power of two, up to wrapping
around, or divides by it; from 64 on nothing is left. Comparisons decide the order of the
two's-complement or of the unsigned numbers, and leave all bits set or none. Every condition in
postfix leaves its flag, where there is room to work it out. The two orders are the same up to the
highest bit, and a test for a negative number spreads that bit. -/
theorem Live.shifts_and_orders (live : Live config arguments m) :
    (m.Combines .lShift Cell.shiftLeft ∧ m.Combines .rShift Cell.shiftRight ∧
      ∀ x u : Cell, (x.shiftLeft u).toNat = x.toNat * 2 ^ u.toNat % 2 ^ 64 ∧
        (x.shiftRight u).toNat = x.toNat / 2 ^ u.toNat ∧
        (64 ≤ u.toNat → x.shiftLeft u = 0 ∧ x.shiftRight u = 0)) ∧
    ((∀ c : Comparison, m.Combines c.word fun x y => Cell.ofFlag (c.holds x y)) ∧
      (∀ t : Test, m.Maps t.word fun x => Cell.ofFlag (t.holds x)) ∧
      (∀ flag, (Cell.ofFlag flag).toNat = if flag then 2 ^ 64 - 1 else 0) ∧
      (∀ x y : Cell, Comparison.less.holds x y =
        Comparison.lessUnsigned.holds (x ^^^ 0x8000000000000000) (y ^^^ 0x8000000000000000)) ∧
      ∀ x : Cell, Cell.ofFlag (Test.negative.holds x) = 0 - x.shiftRight 63) ∧
    ∀ (host : HostRunner) (budget : Nat),
      (∀ c : Condition, c.height ≤ m.data.room →
        Leads host budget c.items m (m.withTop (Cell.ofFlag c.holds))) ∧
      (∀ (a b : Cell) (n : Machine), 3 ≤ m.data.room →
        (Leads host budget [.literal a, .literal b, .word .less] m n ↔
          Leads host budget [.literal a, .literal 0x8000000000000000, .word .xor,
            .literal b, .literal 0x8000000000000000, .word .xor, .word .uLess] m n)) ∧
      ∀ (x : Cell) (n : Machine), 2 ≤ m.data.room →
        (Leads host budget [.literal x, .word .zeroLess] m n ↔
          Leads host budget [.literal x, .literal 63, .word .rShift, .word .negate] m n) := by
  have hknows := fun p => live.wellFormed.knows p
  refine ⟨⟨(hknows _).combines rfl, (hknows _).combines rfl, fun x u =>
    ⟨x.toNat_shiftLeft u, x.toNat_shiftRight u, fun h => Cell.shift_eq_zero h x⟩⟩,
    ⟨fun c => (hknows _).combines c.effect_eq, fun t => (hknows _).maps t.effect_eq,
      Cell.toNat_ofFlag, Comparison.less_holds_eq, Cell.ofFlag_negative⟩,
    fun host budget => ⟨fun c => (c.yields host budget).leads m hknows, fun a b n hroom => ?_,
      fun x n hroom => ?_⟩⟩
  · have hflip : ∀ x : Cell, Yields host budget
        [.literal x, .literal 0x8000000000000000, .word .xor] 2
        (x ^^^ 0x8000000000000000) := fun x => (yields_literal x).combine (yields_literal _) rfl
    have hless := (Condition.compare .less a b).yields host budget
    rw [Condition.holds, Comparison.less_holds_eq] at hless
    exact (hless.leads m hknows (Nat.le_of_succ_le hroom)).congr
      (((hflip a).combine (hflip b) Comparison.lessUnsigned.effect_eq).leads m hknows hroom)
  · have hspread : Yields host budget [.literal x, .literal 63, .word .rShift, .word .negate] 2
        (0 - x.shiftRight 63) := ((yields_literal x).combine (yields_literal 63) rfl).map rfl
    rw [← Cell.ofFlag_negative] at hspread
    exact (((Condition.test .negative x).yields host budget).leads m hknows
      (Nat.le_of_succ_le hroom)).congr
      (hspread.leads m hknows hroom)

/-- A count of 33 bits shifts everything out, and minus one is below one as a number but not as an
unsigned number. -/
theorem Live.shifts_and_orders_wide :
    ∃ m n, Live {} [] m ∧ m.data.toList = [5, 3, 0x100000001] ∧ m.Invokes .lShift (.done () n) ∧
      n.data.toList = [5, 0] ∧
      Leads (HostCode.run 0) 0 [.literal 0xFFFFFFFFFFFFFFFF, .literal 1, .word .less,
        .literal 0xFFFFFFFFFFFFFFFF, .literal 1, .word .uLess, .word .invert, .word .and] m
        (m.withTop 0xFFFFFFFFFFFFFFFF) ∧
      Leads (HostCode.run 0) 0
        [.literal 0xFFFFFFFFFFFFFFFF, .literal 0x8000000000000000, .word .xor, .literal 1,
          .literal 0x8000000000000000, .word .xor, .word .uLess] m (m.withTop 0xFFFFFFFFFFFFFFFF) ∧
      Leads (HostCode.run 0) 0
        [.literal 0xFFFFFFFFFFFFFFFF, .literal 63, .word .rShift, .word .negate] m
        (m.withTop 0xFFFFFFFFFFFFFFFF) := by
  have hsession : afterItems {} [.literal 5, .literal 3, .literal 0x100000001]
      (fun m => m.data.toList == [5, 3, 0x100000001] && decide (3 ≤ m.data.room)) = true := by
        decide +kernel
  obtain ⟨m, live, hchecks⟩ := live_of_afterItems hsession
  simp only [Bool.and_eq_true, beq_iff_eq, decide_eq_true_eq] at hchecks
  obtain ⟨hcells, hroom⟩ := hchecks
  obtain ⟨⟨hshift, -, hvalues⟩, -, hleads⟩ := live.shifts_and_orders
  obtain ⟨hcondition, horders, hnegative⟩ := hleads (HostCode.run 0) 0
  have hshifted := (hshift _).mpr ⟨[5], 3, 0x100000001, hcells, rfl⟩
  have hzero := ((hvalues 3 0x100000001).2.2 (by decide)).1
  have hroom' : 2 ≤ m.data.room := Nat.le_of_succ_le hroom
  refine ⟨m, _, live, hcells, hshifted, by rw [hzero]; exact Stack.toList_holding _ _,
    hcondition (.both (.compare .less 0xFFFFFFFFFFFFFFFF 1)
      (.negated (.compare .lessUnsigned 0xFFFFFFFFFFFFFFFF 1))) hroom,
    (horders _ _ _ hroom).mp (hcondition (.compare .less 0xFFFFFFFFFFFFFFFF 1) hroom'),
    (hnegative _ _ hroom').mp
      (hcondition (.test .negative 0xFFFFFFFFFFFFFFFF) (Nat.le_of_succ_le hroom'))⟩

end Machine

end ThreadedForth
