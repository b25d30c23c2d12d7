import ThreadedForth.Proofs.Evaluation
import ThreadedForth.Proofs.Layout

/-!
# Alignment

Addresses are rounded up to a cell boundary in three ways: by adding what the remainder lacks, where
a sum that does not fit in a cell has no result; by adding and masking, where such a sum wraps
around to zero; and by padding data space, where a byte has to remain. All three lead to the least
boundary at or above the address, and differ only where there is none to lead to.
-/

namespace ThreadedForth

/-- Rounding up gives the least cell boundary at or above the address. -/
theorem isLeast_alignUp (address : Nat) :
    IsLeast {boundary : Nat | 8 ∣ boundary ∧ address ≤ boundary} (alignUp address) := by
  refine ⟨⟨dvd_alignUp address, le_alignUp address⟩, ?_⟩
  rintro boundary ⟨hdvd, hle⟩
  have hlt := alignUp_lt address
  have hcell : cellSize = 8 := rfl
  have hboundary : 8 ∣ alignUp address := dvd_alignUp address
  omega

/-- Rounding up keeps the order of addresses. -/
theorem alignUp_mono {address other : Nat} (h : address ≤ other) :
    alignUp address ≤ alignUp other :=
  (isLeast_alignUp address).2 ⟨dvd_alignUp other, Nat.le_trans h (le_alignUp other)⟩

namespace Cell

variable {x y boundary : Cell}

/-- Rounding up has a result exactly when the boundary fits in a cell. -/
theorem alignUp?_eq_some_iff : x.alignUp? = some boundary ↔ boundary.toNat = alignUp x.toNat := by
  rw [alignUp?_eq]
  constructor
  · intro h
    split at h
    · next hfits =>
        cases h
        exact UInt64.toNat_ofNat_of_lt' hfits
    · cases h
  · intro h
    rw [← h, if_pos boundary.toNat_lt, UInt64.ofNat_toNat]

/-- Masking the three lowest bits away rounds down to a cell boundary. -/
theorem toNat_and_mask (x : Cell) : (x &&& ~~~7).toNat = x.toNat / 8 * 8 := by
  have hx := x.toNat_lt
  have hlow := Nat.and_mod_two_pow (a := x.toNat) (b := 0xFFFFFFFFFFFFFFF8) (n := 3)
  have hhigh := Nat.and_div_two_pow (a := x.toNat) (b := 0xFFFFFFFFFFFFFFF8) (n := 3)
  rw [show 0xFFFFFFFFFFFFFFF8 % 2 ^ 3 = 0 from rfl, Nat.and_zero] at hlow
  rw [show 0xFFFFFFFFFFFFFFF8 / 2 ^ 3 = 2 ^ 61 - 1 from rfl,
    Nat.and_two_pow_sub_one_eq_mod] at hhigh
  rw [UInt64.toNat_and]
  change x.toNat &&& 0xFFFFFFFFFFFFFFF8 = _
  omega

/-- Adding and masking gives the boundary, up to wrapping around. -/
theorem alignWrapping_eq (x : Cell) : x.alignWrapping = UInt64.ofNat (alignUp x.toNat) := by
  have hx := x.toNat_lt
  rw [← UInt64.toNat_inj, alignWrapping, toNat_and_mask, UInt64.toNat_add, UInt64.toNat_ofNat',
    alignUp]
  change (x.toNat + 7) % 2 ^ 64 / 8 * 8 = (x.toNat + 7) / 8 * 8 % 2 ^ 64
  omega

/-- Adding and masking gives the boundary where it fits in a cell, and zero elsewhere. -/
theorem alignWrapping_eq_getD (x : Cell) : x.alignWrapping = x.alignUp?.getD 0 := by
  have hx := x.toNat_lt
  rw [alignWrapping_eq, alignUp?_eq]
  split
  · rfl
  · next hlarge =>
      have hlt := alignUp_lt x.toNat
      have hdvd : 8 ∣ alignUp x.toNat := dvd_alignUp x.toNat
      have hcell : cellSize = 8 := rfl
      have hsize : UInt64.size = 2 ^ 64 := rfl
      rw [show alignUp x.toNat = 2 ^ 64 by omega]
      rfl

/-- A boundary is its own boundary. -/
theorem alignUp?_boundary (h : x.alignUp? = some boundary) : boundary.alignUp? = some boundary := by
  rw [alignUp?_eq_some_iff] at h ⊢
  rw [h, alignUp_alignUp]

/-- Wrapped or not, what is left by adding and masking is a boundary. -/
theorem alignWrapping_alignWrapping (x : Cell) :
    x.alignWrapping.alignWrapping = x.alignWrapping := by
  have hboundary : alignUp x.alignWrapping.toNat = x.alignWrapping.toNat := by
    have hzero : x.alignWrapping.toNat % 8 = 0 := by
      rw [alignWrapping, toNat_and_mask, Nat.mul_mod_left]
    rw [alignUp_eq, if_pos hzero]
  rw [alignWrapping_eq x.alignWrapping, hboundary, UInt64.ofNat_toNat]

/-- Below an address with a boundary there are lower boundaries only. -/
theorem alignUp?_mono (hle : x ≤ y) (h : y.alignUp? = some boundary) :
    ∃ lower, x.alignUp? = some lower ∧ lower ≤ boundary := by
  have hmono := alignUp_mono (UInt64.le_iff_toNat_le.mp hle)
  rw [alignUp?_eq_some_iff] at h
  rw [← h] at hmono
  have hlower : (UInt64.ofNat (alignUp x.toNat)).toNat = alignUp x.toNat :=
    UInt64.toNat_ofNat_of_lt' (Nat.lt_of_le_of_lt hmono boundary.toNat_lt)
  exact ⟨_, alignUp?_eq_some_iff.mpr hlower,
    UInt64.le_iff_toNat_le.mpr (by rw [hlower]; exact hmono)⟩

end Cell

/-- On a cell boundary, cells are refused for want of space only. -/
theorem DataSpace.appendCells_fault {s : DataSpace} {cells : List Cell} {fault : Fault}
    (haligned : cellSize ∣ s.here) (hhere : s.here < s.size)
    (h : s.appendCells cells = .error fault) :
    fault = .dataSpaceOverflow (cellSize * cells.length) (s.unused - 1) := by
  have hboundary : requireAligned (UInt64.ofNat s.here) = .ok () :=
    if_pos (isAligned_ofNat.mpr haligned)
  rw [appendCells_eq, hboundary] at h
  cases hspace : s.requireSpace (cellSize * cells.length) with
  | ok _ =>
      rw [hspace] at h
      cases h
  | error cause =>
      rw [hspace] at h
      cases h
      exact requireSpace_fault hspace hhere

namespace Machine

open Item

variable {m n : Machine} {config : Config} {arguments : List String}

/-- The boundary after `here` fits in a cell. -/
theorem Addressable.exists_boundary (h : m.Addressable) :
    ∃ boundary : Cell, Cell.alignUp? (UInt64.ofNat m.space.here) = some boundary ∧
      boundary.toNat = alignUp m.space.here := by
  have hhere := h.here
  have hspace := h.space
  have hlt := alignUp_lt m.space.here
  have htoNat : (UInt64.ofNat m.space.here).toNat = m.space.here :=
    UInt64.toNat_ofNat_of_lt' (by omega)
  have hboundary : (UInt64.ofNat (alignUp m.space.here)).toNat = alignUp m.space.here :=
    UInt64.toNat_ofNat_of_lt' (by omega)
  exact ⟨_, Cell.alignUp?_eq_some_iff.mpr (by rw [htoNat, hboundary]), hboundary⟩

/-- The machine in which `here` has just been aligned. -/
def atBoundary (m : Machine) : Machine :=
  { m with
    space := { m.space with here := alignUp m.space.here }, current := some Primitive.align.token }

/-- On a boundary there is nothing to move. -/
theorem atBoundary_atBoundary (m : Machine) : m.atBoundary.atBoundary = m.atBoundary := by
  unfold atBoundary
  dsimp only
  rw [alignUp_alignUp]

/-- Aligning `here` succeeds exactly when its boundary lies in data space. -/
theorem Knows.invokes_align_iff (h : m.Knows .align) :
    m.Invokes .align (.done () n) ↔ alignUp m.space.here < m.space.size ∧ n = m.atBoundary := by
  rw [h.invokes_done_iff rfl, alignWord, bind_eq_ok]
  constructor
  · rintro ⟨space, hspace, hn⟩
    obtain ⟨hlt, rfl⟩ := DataSpace.align_eq_ok.mp hspace
    exact ⟨hlt, (Except.ok.inj hn).symm⟩
  · rintro ⟨hlt, rfl⟩
    exact ⟨_, DataSpace.align_eq_ok.mpr ⟨hlt, rfl⟩, rfl⟩

/-- Aligning `here` once more has no effect. -/
theorem Knows.invokes_align_again (h : m.Knows .align) (hlt : alignUp m.space.here < m.space.size) :
    m.atBoundary.Invokes .align (.done () m.atBoundary) := by
  have hagain : alignUp m.atBoundary.space.here < m.atBoundary.space.size :=
    (alignUp_alignUp m.space.here).symm ▸ hlt
  exact (Knows.invokes_align_iff (m := m.atBoundary) h).mpr ⟨hagain, m.atBoundary_atBoundary.symm⟩

/-- On a cell boundary, a cell is refused for want of an operand or of space only. -/
theorem commaWord_fault {fault : Fault} (h : m.commaWord = .error fault)
    (haligned : 8 ∣ m.space.here) (hhere : m.space.here < m.space.size) :
    fault = m.data.underflow 1 ∨ fault = .dataSpaceOverflow 8 (m.space.unused - 1) := by
  rw [commaWord] at h
  cases hpop : m.data.pop with
  | error cause =>
      rw [hpop] at h
      cases h
      unfold Stack.pop at hpop
      split at hpop <;> cases hpop
      exact .inl rfl
  | ok popped =>
      rw [hpop] at h
      dsimp only [bind, Except.bind] at h
      cases happend : m.space.appendCells [popped.1] with
      | ok space =>
          rw [happend] at h
          cases h
      | error cause =>
          rw [happend] at h
          cases h
          exact .inr (DataSpace.appendCells_fault haligned hhere happend)

/-- On a cell boundary, a cell is never refused for its address. -/
theorem Knows.comma_ne_unaligned {reason : Halt} (h : m.Knows .comma) (haligned : 8 ∣ m.space.here)
    (hhere : m.space.here < m.space.size) (hhalted : m.Invokes .comma (.halted reason n))
    (address : Cell) : reason ≠ .fault (.unalignedAccess address) := by
  obtain ⟨fault, rfl, hfault⟩ := h.exists_fault_of_halted rfl hhalted
  intro hunaligned
  cases hunaligned
  rcases commaWord_fault hfault haligned hhere with hcause | hcause <;> cases hcause

/-- Aligning the address of the next byte leaves its boundary. -/
theorem leads_here_aligned (hknows : ∀ p, m.Knows p) (hroom : 1 ≤ m.data.room) (host : HostRunner)
    (budget : Nat) :
    Leads host budget [.word .here, .word .aligned] m
      (m.withTop (Cell.alignWrapping (UInt64.ofNat m.space.here))) := by
  have hhere : Leads host budget [.word .here] m (m.withTop (UInt64.ofNat m.space.here)) := by
    refine ⟨some Primitive.here.token,
      performAll_word host budget [] ((hknows .here).invokes_done rfl ?_)⟩
    rw [withTop, Stack.holding_concat]
    exact push_of_room _ (Nat.ne_of_gt hroom)
  exact hhere.map (hknows .aligned) hroom rfl

/-- Rounding up an address gives the least cell boundary at or above it, if that fits in a cell. The
word that aligns an address leaves the same, or zero where the boundary does not fit. Neither
changes a boundary, and both keep the order of addresses whose boundaries fit. In every live session
the padding is the distance from `here` to its boundary, and the word that aligns an address takes
it there as well. Aligning `here` itself succeeds exactly when the boundary lies in data space. Once
it has, a second time has no effect, and no cell is refused for its address. -/
theorem Live.alignments_agree (live : Live config arguments m) :
    ((∀ a : Cell, ∃ boundary, IsLeast {address : Nat | 8 ∣ address ∧ a.toNat ≤ address} boundary ∧
        a.alignUp? = if boundary < 2 ^ 64 then some (UInt64.ofNat boundary) else none) ∧
      m.Maps .aligned Cell.alignWrapping ∧
      (∀ a : Cell, a.alignWrapping = a.alignUp?.getD 0) ∧
      (∀ a boundary : Cell, a.alignUp? = some boundary → boundary.alignUp? = some boundary) ∧
      (∀ a : Cell, a.alignWrapping.alignWrapping = a.alignWrapping) ∧
      ∀ a b boundary : Cell, a ≤ b → b.alignUp? = some boundary →
        a.alignWrapping ≤ b.alignWrapping ∧ ∃ lower, a.alignUp? = some lower ∧ lower ≤ boundary) ∧
    ∃ boundary : Cell, Cell.alignUp? (UInt64.ofNat m.space.here) = some boundary ∧
      Raw.padding.run m.space = .done (boundary.toNat - m.space.here) m.space ∧
      (1 ≤ m.data.room → ∀ host budget,
        Leads host budget [.word .here, .word .aligned] m (m.withTop boundary)) ∧
      ((∃ n, m.Invokes .align (.done () n)) ↔ boundary.toNat < config.dataSpace) ∧
      ∀ n, m.Invokes .align (.done () n) →
        n = { m with
          space := { m.space with here := boundary.toNat },
          current := some Primitive.align.token } ∧
        n.Invokes .align (.done () n) ∧
        ∀ data reason o, Invokes { n with data := data } .comma (.halted reason o) →
          ∀ address, reason ≠ .fault (.unalignedAccess address) := by
  have hwell := live.wellFormed
  have hknows := fun p => hwell.knows p
  have haddressable := hwell.addressable
  obtain ⟨boundary, hboundary, htoNat⟩ := haddressable.exists_boundary
  refine ⟨⟨fun a => ⟨_, isLeast_alignUp a.toNat, a.alignUp?_eq⟩, (hknows _).maps rfl,
    Cell.alignWrapping_eq_getD, fun a b => Cell.alignUp?_boundary, Cell.alignWrapping_alignWrapping,
    fun a b y hle hy => ?_⟩, boundary, hboundary, ?_, fun hroom host budget => ?_, ?_,
    fun n hn => ?_⟩
  · obtain ⟨x, hx, hxy⟩ := Cell.alignUp?_mono hle hy
    rw [a.alignWrapping_eq_getD, b.alignWrapping_eq_getD, hx, hy]
    exact ⟨hxy, x, rfl, hxy⟩
  · rw [htoNat]
    exact Raw.padding_run haddressable.here haddressable.space
  · have hleads := leads_here_aligned hknows hroom host budget
    rwa [Cell.alignWrapping_eq_getD, hboundary] at hleads
  · rw [htoNat, ← hwell.space_size]
    simp only [(hknows .align).invokes_align_iff, exists_and_left, exists_eq, and_true]
  · obtain ⟨hlt, rfl⟩ := (hknows .align).invokes_align_iff.mp hn
    refine ⟨by rw [htoNat]; rfl, (hknows .align).invokes_align_again hlt,
      fun data reason o hcomma => ?_⟩
    exact Knows.comma_ne_unaligned (m := { m.atBoundary with data := data }) (hknows .comma)
      (dvd_alignUp m.space.here) hlt hcomma

/-- From 25 the boundary is 32, which is not in a data space of 32 bytes and is the last byte of one
of 33. -/
theorem Live.alignments_agree_brim :
    ∃ m k n, Live { dataSpace := 32, dictionary := 77, inputBuffer := 8 } [] m ∧
      Live { dataSpace := 33, dictionary := 77, inputBuffer := 8 } [] k ∧ m.space.here = 25 ∧
      k.space.here = 25 ∧ (¬ ∃ o, m.Invokes .align (.done () o)) ∧
      k.Invokes .align (.done () n) ∧ n.space.here = 32 ∧ n.Invokes .align (.done () n) ∧
      Leads (HostCode.run 0) 0 [.word .here, .word .aligned] k (k.withTop 32) ∧
      Cell.alignUp? 0xFFFFFFFFFFFFFFF9 = none ∧ Cell.alignWrapping 0xFFFFFFFFFFFFFFF9 = 0 := by
  have hfirst : afterItems { dataSpace := 32, dictionary := 77, inputBuffer := 8 }
      [.literal 1, .word .cComma]
      (fun m => m.space.here == 25) = true := by decide +kernel
  have hsecond : afterItems { dataSpace := 33, dictionary := 77, inputBuffer := 8 }
      [.literal 1, .word .cComma]
      (fun k => k.space.here == 25 && decide (1 ≤ k.data.room)) = true := by decide +kernel
  obtain ⟨m, mlive, hm⟩ := live_of_afterItems hfirst
  obtain ⟨k, klive, hchecks⟩ := live_of_afterItems hsecond
  simp only [Bool.and_eq_true, beq_iff_eq, decide_eq_true_eq] at hm hchecks
  obtain ⟨hk, hroom⟩ := hchecks
  have hboundary : Cell.alignUp? (UInt64.ofNat 25) = some 32 := by decide +kernel
  have hnone : Cell.alignUp? 0xFFFFFFFFFFFFFFF9 = none := by decide +kernel
  obtain ⟨⟨-, -, hwrapping, -⟩, b, hb, -, -, hmalign, -⟩ := mlive.alignments_agree
  obtain ⟨-, c, hc, -, hleads, hkalign, hdone⟩ := klive.alignments_agree
  rw [hm, hboundary] at hb
  rw [hk, hboundary] at hc
  cases hb
  cases hc
  obtain ⟨n, hn⟩ := hkalign.mpr (by decide)
  obtain ⟨heq, hagain, -⟩ := hdone n hn
  refine ⟨m, k, n, mlive, klive, hm, hk, fun h => absurd (hmalign.mp h) (by decide),
    hn, by rw [heq]; rfl, hagain, hleads hroom _ _, hnone, ?_⟩
  rw [hwrapping, hnone]
  rfl

end Machine

end ThreadedForth
