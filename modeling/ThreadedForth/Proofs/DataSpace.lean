import ThreadedForth.Proofs.Contract

/-!
# Handing out data space

Exact conditions under which data space is handed out, and what every operation on it leaves alone:
the size never changes, `here` never moves back, and it never reaches the end. Writing a range
changes no byte outside of it.
-/

namespace ThreadedForth

/-- Rounding up does not go below the address. -/
theorem le_alignUp (address : Nat) : address ≤ alignUp address := by
  unfold alignUp cellSize
  omega

/-- Rounding up stays within one cell of the address. -/
theorem alignUp_lt (address : Nat) : alignUp address < address + cellSize := by
  unfold alignUp cellSize
  omega

/-- Rounding up gives a cell boundary. -/
theorem dvd_alignUp (address : Nat) : cellSize ∣ alignUp address := Nat.dvd_mul_left _ _

/-- A number is aligned as a cell exactly when it is a multiple of the cell size. -/
theorem isAligned_ofNat {position : Nat} :
    Cell.isAligned (UInt64.ofNat position) = true ↔ cellSize ∣ position := by
  unfold Cell.isAligned
  rw [beq_iff_eq, ← UInt64.toNat_inj, UInt64.toNat_mod, UInt64.toNat_ofNat',
    Nat.dvd_iff_mod_eq_zero]
  change position % 18446744073709551616 % 8 = 0 ↔ position % 8 = 0
  omega

/-- Rounding up adds what is lacking to the next cell boundary, and nothing to a boundary. -/
theorem alignUp_eq (address : Nat) :
    alignUp address = if address % 8 = 0 then address else address + (8 - address % 8) := by
  unfold alignUp cellSize
  split <;> omega

namespace Cell

/-- A sum that fits in a cell is that of the numbers. -/
theorem add?_eq (x y : Cell) :
    x.add? y = if x.toNat + y.toNat < UInt64.size then some (UInt64.ofNat (x.toNat + y.toNat))
    else none := by
  rw [add?, UInt64.ofNat_add, UInt64.ofNat_toNat, UInt64.ofNat_toNat]

/-- Rounding up a cell gives the cell boundary above the number, if that fits in a cell. -/
theorem alignUp?_eq (x : Cell) :
    x.alignUp? = if alignUp x.toNat < UInt64.size then some (UInt64.ofNat (alignUp x.toNat))
    else none := by
  have hover : (x % 8).toNat = x.toNat % 8 := UInt64.toNat_mod x 8
  have hiff : x % 8 = 0 ↔ x.toNat % 8 = 0 := by rw [← UInt64.toNat_inj, hover]; rfl
  rw [alignUp?, alignUp_eq]
  by_cases hboundary : x.toNat % 8 = 0
  · rw [if_pos (hiff.mpr hboundary), if_pos hboundary, if_pos x.toNat_lt, UInt64.ofNat_toNat]
  · have hle : x % 8 ≤ 8 := by
      rw [UInt64.le_iff_toNat_le, hover]
      exact Nat.le_of_lt (Nat.mod_lt _ (by decide))
    have hlacks : (8 - x % 8).toNat = 8 - x.toNat % 8 := by
      rw [UInt64.toNat_sub_of_le _ _ hle, hover]
      rfl
    rw [if_neg (fun h => hboundary (hiff.mp h)), if_neg hboundary, add?_eq, hlacks]

end Cell

namespace Memory

/-- Writing a range keeps every byte below it. -/
theorem get_write_of_lt (m : Memory) {address other : Nat} (bytes : List UInt8)
    (h : other < address) : (m.write address bytes).get other = m.get other := by
  rw [get_write, if_neg (by omega)]

/-- Writing a range keeps every byte above it. -/
theorem get_write_of_le (m : Memory) {address other : Nat} (bytes : List UInt8)
    (h : address + bytes.length ≤ other) : (m.write address bytes).get other = m.get other := by
  rw [get_write, if_pos (by omega), List.getElem?_eq_none (by omega), Option.getD_none]

/-- A cell is determined by its eight bytes. -/
theorem getCell_congr {m n : Memory} {address : Nat}
    (h : ∀ other, address ≤ other → other < address + cellSize → m.get other = n.get other) :
    m.getCell address = n.getCell address := by
  unfold getCell read
  congr 1
  apply List.map_congr_left
  intro other hother
  obtain ⟨hlow, hhigh⟩ := List.mem_range'_1.mp hother
  exact h other hlow hhigh

/-- Writing one range and then the range after it writes both at once. -/
theorem write_append (m : Memory) (address : Nat) (left right : List UInt8) :
    m.write address (left ++ right) =
      (m.write address left).write (address + left.length) right := by
  induction left generalizing m address with
  | nil => rfl
  | cons b rest ih =>
      rw [List.cons_append, write, ih, write, List.length_cons, Nat.add_right_comm, Nat.add_assoc]

end Memory

namespace DataSpace

variable {s t : DataSpace}

/-- Space is available exactly when handing it out leaves at least one byte. -/
theorem requireSpace_eq_ok {length : Nat} :
    s.requireSpace length = .ok () ↔ s.here + length < s.size := by
  unfold requireSpace requireHere unused
  split
  · next h => exact ⟨fun hok => (nomatch hok), fun hlt => absurd h (by omega)⟩
  · change (if s.size - s.here - 1 < length then _ else _) = _ ↔ _
    split
    · next h => exact ⟨fun hok => (nomatch hok), fun hlt => absurd h (by omega)⟩
    · exact ⟨fun _ => by omega, fun _ => rfl⟩

/-- As long as a byte remains, a refused request is told the space it would have needed. -/
theorem requireSpace_fault {length : Nat} {fault : Fault} (h : s.requireSpace length = .error fault)
    (hhere : s.here < s.size) : fault = .dataSpaceOverflow length (s.unused - 1) := by
  unfold requireSpace requireHere at h
  rw [if_neg (by omega)] at h
  change (if s.unused - 1 < length then _ else _) = _ at h
  split at h <;> cases h
  rfl

/-- Space is handed out exactly when at least one byte remains, and only `here` moves. -/
theorem reserve_eq_ok {length : Nat} :
    s.reserve length = .ok t ↔
    s.here + length < s.size ∧ t = { s with here := s.here + length } := by
  unfold reserve
  rw [bind_eq_ok, ← requireSpace_eq_ok]
  exact ⟨fun ⟨_, hspace, ht⟩ => ⟨hspace, by cases ht; rfl⟩,
    fun ⟨hspace, ht⟩ => ⟨(), hspace, by rw [ht]; rfl⟩⟩

/-- Space up to a cell boundary is handed out exactly when the boundary lies inside. -/
theorem align_eq_ok :
    s.align = .ok t ↔ alignUp s.here < s.size ∧ t = { s with here := alignUp s.here } := by
  have hle := le_alignUp s.here
  unfold align
  rw [reserve_eq_ok, Nat.add_sub_cancel' hle]

/-- Bytes are appended exactly when at least one byte remains, and they are written from `here`
on. -/
theorem append_eq_ok {bytes : List UInt8} :
    s.append bytes = .ok t ↔ s.here + bytes.length < s.size ∧
      t = { s with here := s.here + bytes.length, memory := s.memory.write s.here bytes } := by
  unfold append
  rw [bind_eq_ok]
  constructor
  · rintro ⟨reserved, hreserved, ht⟩
    obtain ⟨hspace, rfl⟩ := reserve_eq_ok.mp hreserved
    cases ht
    exact ⟨hspace, rfl⟩
  · rintro ⟨hspace, rfl⟩
    exact ⟨_, reserve_eq_ok.mpr ⟨hspace, rfl⟩, rfl⟩

/-- Cells are appended exactly when `here` is on a cell boundary and at least one byte remains. -/
theorem appendCells_eq_ok {cells : List Cell} :
    s.appendCells cells = .ok t ↔
      Cell.isAligned (UInt64.ofNat s.here) = true ∧
      s.append (cells.flatMap Cell.toBytes) = .ok t := by
  unfold appendCells requireAligned
  split
  · next h => exact ⟨fun ht => ⟨h, ht⟩, fun ht => ht.2⟩
  · next h => exact ⟨fun ht => (nomatch ht), fun ht => absurd ht.1 h⟩

/-- A range of bytes that has been checked lies inside data space. -/
theorem byteRange_le {address : Cell} {length position : Nat}
    (h : s.byteRange address length = .ok position) : position + length ≤ s.size := by
  unfold byteRange at h
  split at h
  · cases h; assumption
  · cases h

/-- A cell that has been checked lies inside data space. -/
theorem cellAddress_le {address : Cell} {position : Nat}
    (h : s.cellAddress address = .ok position) : position + cellSize ≤ s.size := by
  obtain ⟨-, -, hrange⟩ := bind_eq_ok.mp h
  exact byteRange_le hrange

/-- A range of bytes that has been checked is where its address says. -/
theorem byteRange_toNat {address : Cell} {length position : Nat}
    (h : s.byteRange address length = .ok position) : position = address.toNat := by
  unfold byteRange at h
  split at h <;> cases h
  rfl

/-- A cell that has been checked is where its address says. -/
theorem cellAddress_toNat {address : Cell} {position : Nat}
    (h : s.cellAddress address = .ok position) : position = address.toNat := by
  obtain ⟨-, -, hrange⟩ := bind_eq_ok.mp h
  exact byteRange_toNat hrange

/-- Appending bytes first requires the space. -/
theorem append_eq (s : DataSpace) (bytes : List UInt8) :
    s.append bytes = do
      s.requireSpace bytes.length
      return { s with here := s.here + bytes.length, memory := s.memory.write s.here bytes } := by
  unfold append reserve
  cases s.requireSpace bytes.length <;> rfl

/-- Appending cells first requires `here` on a cell boundary, and then the space. -/
theorem appendCells_eq (s : DataSpace) (cells : List Cell) :
    s.appendCells cells = do
      requireAligned (UInt64.ofNat s.here)
      s.requireSpace (cellSize * cells.length)
      return { s with
        here := s.here + cellSize * cells.length
        memory := s.memory.write s.here (cells.flatMap Cell.toBytes) } := by
  have hlength : (cells.flatMap Cell.toBytes).length = cellSize * cells.length := by
    simp [List.length_flatMap, List.map_const', Nat.mul_comm]
  unfold appendCells
  rw [append_eq, hlength]

/-- The size of data space is fixed, and `here` moves forward without reaching the end. -/
structure Extends (s t : DataSpace) : Prop where
  size : t.size = s.size
  here_le : s.here ≤ t.here
  here_lt : s.here < s.size → t.here < t.size

/-- Data space extends itself. -/
theorem Extends.refl (s : DataSpace) : s.Extends s := ⟨rfl, Nat.le_refl _, id⟩

/-- Replacing the memory extends data space. -/
theorem Extends.ofMemory (s : DataSpace) (memory : Memory) :
    s.Extends { s with memory := memory } :=
  ⟨rfl, Nat.le_refl _, id⟩

/-- The contract of operations on data space: it extends, and while a byte remains no operation says
otherwise, or anything that does not concern its operands. -/
def Grows (s : DataSpace) (change : Except Fault DataSpace) : Prop :=
  Meets s.Extends (fun fault => s.here < s.size → fault.isOrdinary = true) change

/-- Handing out bytes extends data space. -/
theorem reserve_grows (s : DataSpace) (length : Nat) : s.Grows (s.reserve length) := by
  cases hreserve : s.reserve length with
  | ok t =>
      obtain ⟨hspace, rfl⟩ := reserve_eq_ok.mp hreserve
      exact ⟨rfl, Nat.le_add_right _ _, fun _ => hspace⟩
  | error fault =>
      intro hhere
      unfold reserve at hreserve
      cases hspace : s.requireSpace length with
      | ok _ => rw [hspace] at hreserve; cases hreserve
      | error _ =>
          rw [hspace] at hreserve
          cases hreserve
          rw [requireSpace_fault hspace hhere]
          rfl

/-- Moving `here` to a cell boundary extends data space. -/
theorem align_grows (s : DataSpace) : s.Grows s.align := s.reserve_grows _

/-- Appending bytes extends data space. -/
theorem append_grows (s : DataSpace) (bytes : List UInt8) : s.Grows (s.append bytes) :=
  (s.reserve_grows bytes.length).bind fun _ ht => ⟨ht.size, ht.here_le, ht.here_lt⟩

/-- Appending cells extends data space. -/
theorem appendCells_grows (s : DataSpace) (cells : List Cell) : s.Grows (s.appendCells cells) := by
  unfold appendCells requireAligned
  split
  · exact s.append_grows _
  · exact fun _ => rfl

/-- The contract of reading data space, and of finding the position of what is read. -/
def Reads {α : Type} (reading : Except Fault α) : Prop :=
  Meets (fun _ => True) (fun fault => fault.isOrdinary = true) reading

/-- A reading may be part of an operation that hands out space. -/
theorem Reads.grows {α : Type} {reading : Except Fault α} (h : Reads reading) :
    Meets (fun _ => True) (fun fault => s.here < s.size → fault.isOrdinary = true) reading :=
  h.weaken (fun _ _ => trivial) fun _ hfault _ => hfault

/-- A range of bytes is found or out of bounds. -/
theorem byteRange_reads (s : DataSpace) (address : Cell) (length : Nat) :
    Reads (s.byteRange address length) := by
  unfold byteRange
  split
  · trivial
  · rfl

/-- An aligned cell is found or out of bounds. -/
theorem cellAddress_reads (s : DataSpace) (address : Cell) : Reads (s.cellAddress address) := by
  unfold cellAddress requireAligned
  split
  · exact s.byteRange_reads address cellSize
  · rfl

/-- Reading a cell concerns its address only. -/
theorem fetch_reads (s : DataSpace) (address : Cell) : Reads (s.fetch address) :=
  (s.cellAddress_reads address).bind fun _ _ => trivial

/-- Reading a byte concerns its address only. -/
theorem fetchByte_reads (s : DataSpace) (address : Cell) : Reads (s.fetchByte address) :=
  (s.byteRange_reads address 1).bind fun _ _ => trivial

/-- Reading a range concerns its bounds only. -/
theorem fetchBytes_reads (s : DataSpace) (address : Cell) (length : Nat) :
    Reads (s.fetchBytes address length) :=
  (s.byteRange_reads address length).bind fun _ _ => trivial

/-- Writing a cell leaves size and `here` alone. -/
theorem store_grows (s : DataSpace) (address x : Cell) : s.Grows (s.store address x) :=
  (s.cellAddress_reads address).grows.bind fun _ _ => Extends.ofMemory s _

/-- Writing a byte leaves size and `here` alone. -/
theorem storeByte_grows (s : DataSpace) (address : Cell) (b : UInt8) :
    s.Grows (s.storeByte address b) :=
  (s.byteRange_reads address 1).grows.bind fun _ _ => Extends.ofMemory s _

end DataSpace

end ThreadedForth
