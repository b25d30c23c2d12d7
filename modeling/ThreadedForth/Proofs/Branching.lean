import ThreadedForth.Proofs.Invocation

/-!
# Branches

A branch offset is a two's-complement number that is counted from the cell that holds it. The sum is
formed in a cell, where it may wrap around; it is taken for an address when it reads as no negative
number. The slot being an address itself, the sum can wrap around only to what reads as a negative
number, so a branch leads to the sum over the integers or is refused, whatever the offset.
Conversely every address of data space is reached from every slot by the difference of the two.
-/

namespace ThreadedForth

namespace Cell

/-- The upper half of the cells reads as negative numbers. -/
theorem toInt_signed (x : Cell) :
    x.signed.toInt = if x.toNat < 2 ^ 63 then (x.toNat : Int) else (x.toNat : Int) - 2 ^ 64 := by
  rw [signed, ← Int64.toInt_toBitVec, UInt64.toBitVec_toInt64, BitVec.toInt_eq_toNat_cond,
    UInt64.toNat_toBitVec]
  split <;> split <;> omega

/-- The cells that read as negative numbers are those of the upper half. -/
theorem signed_neg_iff (x : Cell) : x.signed < 0 ↔ 2 ^ 63 ≤ x.toNat := by
  have hx := x.toNat_lt
  rw [Int64.lt_iff_toInt_lt, toInt_signed, Int64.toInt_zero]
  split <;> omega

/-- A number as a cell is the number up to wrapping around. -/
theorem toNat_ofInt (t : Int) : ((UInt64.ofInt t).toNat : Int) = t % 2 ^ 64 := by
  rw [UInt64.ofInt, UInt64.toNat_ofNat']
  omega

/-- An address is the same cell as an integer and as a number. -/
theorem ofInt_natCast (address : Nat) : UInt64.ofInt address = UInt64.ofNat address := by
  have hint := toNat_ofInt address
  rw [← UInt64.toNat_inj, UInt64.toNat_ofNat']
  omega

/-- An offset is added to an address as a two's-complement number, up to wrapping around. -/
theorem add_eq_ofInt (slot offset : Cell) :
    slot + offset = UInt64.ofInt (slot.toNat + offset.signed.toInt) := by
  have hint := toNat_ofInt (slot.toNat + offset.signed.toInt)
  have hsigned := offset.toInt_signed
  rw [← UInt64.toNat_inj, UInt64.toNat_add]
  split at hsigned <;> omega

end Cell

/-- Where a branch to a number leads: to the address that the number is, unless it is none. -/
def destination (t : Int) : Except Fault Cell :=
  if 0 ≤ t ∧ t < 2 ^ 63 then .ok (UInt64.ofNat t.toNat)
  else .error (.addressOutOfBounds (UInt64.ofInt t) cellSize)

/-- A branch leads to the sum of its slot and its offset over the integers. -/
theorem branchTarget_eq_destination {slot : Cell} (hslot : slot.toNat < 2 ^ 63) (offset : Cell) :
    branchTarget slot offset = destination (slot.toNat + offset.signed.toInt) := by
  have hlow := offset.signed.le_toInt
  have hhigh := offset.signed.toInt_lt
  rw [branchTarget, Cell.add_eq_ofInt, destination]
  generalize ht : (slot.toNat : Int) + offset.signed.toInt = t
  have hint := Cell.toNat_ofInt t
  by_cases h : 0 ≤ t ∧ t < 2 ^ 63
  · obtain ⟨address, rfl⟩ := Int.eq_ofNat_of_zero_le h.1
    rw [if_pos h]
    rw [Cell.ofInt_natCast] at hint ⊢
    exact if_neg (by rw [Cell.signed_neg_iff]; omega)
  · rw [if_neg h]
    exact if_pos ((Cell.signed_neg_iff _).mpr (by omega))

/-- The difference of an address and a slot leads from the slot to the address. -/
theorem branchTarget_ofInt {slot : Cell} {target : Nat} (hslot : slot.toNat < 2 ^ 63)
    (htarget : target < 2 ^ 63) :
    branchTarget slot (UInt64.ofInt (target - slot.toNat)) = .ok (UInt64.ofNat target) := by
  have hoffset : (Cell.signed (UInt64.ofInt (target - slot.toNat))).toInt =
      target - slot.toNat := by
    have hint := Cell.toNat_ofInt (target - slot.toNat)
    rw [Cell.toInt_signed]
    split <;> omega
  have hsum : (slot.toNat : Int) + (target - slot.toNat) = target := by omega
  rw [branchTarget_eq_destination hslot, hoffset, hsum, destination]
  exact if_pos ⟨Int.natCast_nonneg target, by omega⟩

namespace Machine

variable {m : Machine} {slot offset x : Cell} {below : List Cell} {config : Config}
  {arguments : List String}

/-- The slot under the cursor holds the operand. -/
theorem operand_eq (hcursor : m.cursor = some slot)
    (hgranted : cellFault? m.space.size slot = none) :
    m.operand = .ok (slot, m.space.cellAt slot.toNat) := by
  refine operand_of_fetch hcursor ?_
  rw [DataSpace.fetch_eq, hgranted]
  rfl

/-- A cell that is stored in the slot under the cursor is found there as the operand. -/
theorem operand_storeCell (hcursor : m.cursor = some slot)
    (hgranted : cellFault? m.space.size slot = none) (x : Cell) :
    m.storeCell slot x = .ok { m with space := m.space.setCell slot.toNat x } ∧
      operand { m with space := m.space.setCell slot.toNat x } = .ok (slot, x) := by
  constructor
  · rw [storeCell, DataSpace.store_eq, hgranted]
    rfl
  · rw [operand_eq (m := { m with space := m.space.setCell slot.toNat x }) hcursor hgranted,
      (m.space.storesCell_setCell slot.toNat x).cell]

/-- A branch needs its target. -/
theorem branchWord_eq (hoperand : m.operand = .ok (slot, offset)) :
    m.branchWord = (branchTarget slot offset).map fun target =>
      { m with cursor := some target } := by
  simp only [branchWord, hoperand, bind, Except.bind]
  cases branchTarget slot offset <;> rfl

/-- A conditional branch needs its target only when the top cell is zero. -/
theorem zeroBranchWord_eq (hoperand : m.operand = .ok (slot, offset))
    (hs : m.data.toList = below ++ [x]) :
    m.zeroBranchWord =
      (if x = 0 then branchTarget slot offset else .ok (slot + 8)).map fun target =>
      { m with data := m.data.holding below, cursor := some target } := by
  simp only [zeroBranchWord, hoperand, Stack.pop_of_toList hs, bind, Except.bind]
  by_cases hx : x = 0
  · simp only [if_pos hx]
    cases branchTarget slot offset <;> rfl
  · simp only [if_neg hx]
    rfl

/-- What a branch comes to that is to leave a data stack: the cursor moves to the target, or the
branch is refused and nothing else happens. -/
def branched (m : Machine) (p : Primitive) (data : Stack .data) : Except Fault Cell → Outcome Unit
  | .ok target => .done () { m with data := data, cursor := some target, current := some p.token }
  | .error fault => .halted (.fault fault) { m with current := some p.token }

/-- A word that changes the data stack and moves the cursor does so if there is a target. -/
theorem Knows.invokes_branched {p : Primitive} {change : Machine → Except Fault Machine}
    {data : Stack .data} {target : Except Fault Cell} (h : m.Knows p)
    (heffect : p.effect? = some (Effect.change change))
    (hchange : change { m with current := some p.token } =
      target.map fun target => { m with
        data := data, cursor := some target, current := some p.token }) :
    m.Invokes p (m.branched p data target) := by
  cases target with
  | ok target => exact h.invokes_done heffect hchange
  | error fault => exact h.invokes_refused heffect hchange

/-- A branch goes to its target. -/
theorem Knows.invokes_branch (h : m.Knows .branch) (hoperand : m.operand = .ok (slot, offset)) :
    m.Invokes .branch (m.branched .branch m.data (branchTarget slot offset)) :=
  h.invokes_branched rfl
    (branchWord_eq (m := { m with current := some Primitive.branch.token }) hoperand)

/-- A conditional branch takes the top cell, and goes to its target when that is zero, and on past
its slot otherwise. -/
theorem Knows.invokes_zeroBranch (h : m.Knows .zeroBranch)
    (hoperand : m.operand = .ok (slot, offset)) (hs : m.data.toList = below ++ [x]) :
    m.Invokes .zeroBranch (m.branched .zeroBranch (m.data.holding below)
      (if x = 0 then branchTarget slot offset else .ok (slot + 8))) :=
  h.invokes_branched rfl
    (zeroBranchWord_eq (m := { m with current := some Primitive.zeroBranch.token }) hoperand hs)

/-- Both branches lead to the same target. -/
theorem Knows.invokes_branches {target : Except Fault Cell} (hbranch : m.Knows .branch)
    (hzero : m.Knows .zeroBranch) (hoperand : m.operand = .ok (slot, offset))
    (htarget : branchTarget slot offset = target) :
    m.Invokes .branch (m.branched .branch m.data target) ∧ ∀ below, m.data.toList = below ++ [0] →
      m.Invokes .zeroBranch (m.branched .zeroBranch (m.data.holding below) target) := by
  subst htarget
  exact ⟨hbranch.invokes_branch hoperand, fun below hs => hzero.invokes_zeroBranch hoperand hs⟩

/-- From every slot of a live session and with every offset in it, both words lead to the sum of
slot and offset over the integers or are refused, the conditional one when the top cell is zero;
otherwise it goes on past the slot. Hence a slot that holds the difference of an address of data
space and its own one leads to that address. -/
theorem Live.branch_words (live : Live config arguments m) (hcursor : m.cursor = some slot)
    (haligned : 8 ∣ slot.toNat) (hinside : slot.toNat + 8 ≤ config.dataSpace) :
    (∀ t : Int, t = slot.toNat + (m.space.cellAt slot.toNat).signed.toInt →
      m.Invokes .branch (m.branched .branch m.data (destination t)) ∧
      ∀ below, m.data.toList = below ++ [0] →
        m.Invokes .zeroBranch (m.branched .zeroBranch (m.data.holding below) (destination t))) ∧
    (∀ below x, m.data.toList = below ++ [x] → x ≠ 0 →
      m.Invokes .zeroBranch
        (m.branched .zeroBranch (m.data.holding below) (.ok (UInt64.ofNat (slot.toNat + 8))))) ∧
    ∀ target < config.dataSpace, ∃ stored,
      m.storeCell slot (UInt64.ofInt (target - slot.toNat)) = .ok stored ∧
      stored.Invokes .branch (stored.branched .branch m.data (.ok (UInt64.ofNat target))) ∧
      ∀ below, m.data.toList = below ++ [0] →
        stored.Invokes .zeroBranch
          (stored.branched .zeroBranch (m.data.holding below) (.ok (UInt64.ofNat target))) := by
  have hwell := live.wellFormed
  have hmaximum : config.dataSpace ≤ 0x40000000 := hwell.valid.dataSpace.2
  have hslot : slot.toNat < 2 ^ 63 := by omega
  have hgranted : cellFault? m.space.size slot = none :=
    cellFault?_eq_none_iff.mpr ⟨haligned, hwell.space_size ▸ hinside⟩
  have hoperand := operand_eq hcursor hgranted
  refine ⟨fun t ht => ?_, fun below x hs hx => ?_, fun target htarget => ?_⟩
  · rw [ht]
    exact Knows.invokes_branches (hwell.knows _) (hwell.knows _) hoperand
      (branchTarget_eq_destination hslot _)
  · have hword := (hwell.knows .zeroBranch).invokes_zeroBranch hoperand hs
    rw [if_neg hx] at hword
    rw [UInt64.ofNat_add, UInt64.ofNat_toNat]
    exact hword
  · obtain ⟨hstored, hoperand⟩ :=
      operand_storeCell hcursor hgranted (UInt64.ofInt (target - slot.toNat))
    exact ⟨_, hstored, Knows.invokes_branches (hwell.knows .branch)
      (hwell.knows .zeroBranch) hoperand
      (branchTarget_ofInt hslot (by omega))⟩

/-- A slot at 1000 on a stack with zero on top: the offset to just below the first address is
refused, and an address before the slot is reached. -/
theorem Live.branch_words_back :
    ∃ m, Live {} [] m ∧ m.cursor = some 1000 ∧ m.data.toList = [0] ∧
      m.space.cellAt 1000 = Cell.ofSigned (-1001) ∧
      m.Invokes .zeroBranch (.halted (.fault (.addressOutOfBounds 0xFFFFFFFFFFFFFFFF 8))
        { m with current := some Primitive.zeroBranch.token }) ∧
      ∃ stored, m.storeCell 1000 (Cell.ofSigned (-728)) = .ok stored ∧
        stored.Invokes .zeroBranch (.done () { stored with
          data := m.data.holding [], cursor := some 272,
          current := some Primitive.zeroBranch.token }) := by
  have hsession : afterItems {}
      [.literal (Cell.ofSigned (-1001)), .literal 1000, .word .store, .literal 0]
      (fun m => m.data.toList == [0] && m.space.cellAt 1000 == Cell.ofSigned (-1001)) = true := by
        decide +kernel
  obtain ⟨k, hk, hchecks⟩ := live_of_afterItems hsession
  simp only [Bool.and_eq_true, beq_iff_eq] at hchecks
  obtain ⟨hcells, hoffset⟩ := hchecks
  have live : Live {} [] { k with cursor := some 1000 } :=
    hk.perform (.ask (.setCursor (some 1000))) 0 rfl
  obtain ⟨hbranch, -, hback⟩ := live.branch_words rfl (by decide) (by decide)
  obtain ⟨stored, hstored, -, hland⟩ := hback 272 (by decide)
  have hsum : (-1 : Int) = (1000 : Cell).toNat + (k.space.cellAt 1000).signed.toInt := by
    rw [hoffset]
    decide
  exact ⟨_, live, rfl, hcells, hoffset, (hbranch (-1) hsum).2 [] hcells, stored, hstored,
    hland [] hcells⟩

end Machine

end ThreadedForth
