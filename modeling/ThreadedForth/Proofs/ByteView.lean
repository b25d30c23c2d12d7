import Mathlib.Algebra.BigOperators.Intervals
import Mathlib.Algebra.BigOperators.Ring.Finset
import ThreadedForth.Proofs.Footprint
import ThreadedForth.Proofs.Inlining
import ThreadedForth.Proofs.Lines

/-!
# Cells and bytes

Data space can be read and written by cells and by bytes, by words and by requests. All of these
accesses are granted under the same conditions on natural numbers, and all of them see one memory: a
cell is the sum of its eight bytes, each weighted by its place, and storing a cell is storing its
bytes, in whatever order that is done.
-/

namespace ThreadedForth

/-- A value, unless there is a fault. -/
def granted {α : Type} (fault? : Option Fault) (value : α) : Except Fault α :=
  fault?.elim (.ok value) .error

/-- What is computed from a value that is granted is granted. -/
theorem granted_bind {α β : Type} (fault? : Option Fault) (value : α) (f : α → β) :
    (granted fault? value >>= fun x => pure (f x)) = granted fault? (f value) := by
  cases fault? <;> rfl

/-- The fault of an access to a cell, if there is one: alignment is reported before bounds. -/
def cellFault? (size : Nat) (address : Cell) : Option Fault :=
  if ¬ 8 ∣ address.toNat then some (.unalignedAccess address)
  else if size < address.toNat + 8 then some (.addressOutOfBounds address 8)
  else none

/-- The fault of an access to a range of bytes, if there is one. -/
def byteFault? (size : Nat) (address : Cell) (length : Nat) : Option Fault :=
  if size < address.toNat + length then some (.addressOutOfBounds address length) else none

/-- Access to a cell is granted exactly on cell boundaries and within bounds. -/
theorem cellFault?_eq_none_iff {size : Nat} {address : Cell} :
    cellFault? size address = none ↔ 8 ∣ address.toNat ∧ address.toNat + 8 ≤ size := by
  unfold cellFault?
  grind

/-- Access to a range of bytes is granted exactly within bounds. -/
theorem byteFault?_eq_none_iff {size length : Nat} {address : Cell} :
    byteFault? size address length = none ↔ address.toNat + length ≤ size := by
  unfold byteFault?
  grind

/-- An address is aligned as a cell exactly when it is a multiple of eight. -/
theorem Cell.isAligned_iff {address : Cell} : address.isAligned = true ↔ 8 ∣ address.toNat := by
  have h : Cell.isAligned (UInt64.ofNat address.toNat) = true ↔ cellSize ∣ address.toNat :=
    isAligned_ofNat
  rwa [UInt64.ofNat_toNat] at h

namespace DataSpace

variable (s : DataSpace) (address : Cell)

/-- A range of bytes is found unless it reaches out of bounds. -/
theorem byteRange_eq (length : Nat) :
    s.byteRange address length = granted (byteFault? s.size address length) address.toNat := by
  unfold byteRange byteFault?
  by_cases h : address.toNat + length ≤ s.size
  · rw [if_pos h, if_neg (Nat.not_lt_of_le h)]
    rfl
  · rw [if_neg h, if_pos (Nat.lt_of_not_le h)]
    rfl

/-- A cell is found unless it is unaligned or out of bounds. -/
theorem cellAddress_eq :
    s.cellAddress address = granted (cellFault? s.size address) address.toNat := by
  unfold cellAddress requireAligned cellFault?
  by_cases h : 8 ∣ address.toNat
  · rw [if_pos (Cell.isAligned_iff.mpr h), if_neg (not_not_intro h)]
    exact s.byteRange_eq address cellSize
  · rw [if_neg (mt Cell.isAligned_iff.mp h), if_pos h]
    rfl

/-- A cell is read if there is no fault in its address. -/
theorem fetch_eq :
    s.fetch address = granted (cellFault? s.size address) (s.cellAt address.toNat) := by
  rw [fetch, cellAddress_eq, granted_bind]

/-- A cell is written if there is no fault in its address. -/
theorem store_eq (x : Cell) :
    s.store address x = granted (cellFault? s.size address) (s.setCell address.toNat x) := by
  rw [store, cellAddress_eq, granted_bind _ _ fun position => s.setCell position x]

/-- A byte is read if there is no fault in its address. -/
theorem fetchByte_eq :
    s.fetchByte address = granted (byteFault? s.size address 1) (s.byteAt address.toNat) := by
  rw [fetchByte, byteAddress, byteRange_eq, granted_bind]

/-- A byte is written if there is no fault in its address. -/
theorem storeByte_eq (b : UInt8) :
    s.storeByte address b = granted (byteFault? s.size address 1) (s.setByte address.toNat b) := by
  rw [storeByte, byteAddress, byteRange_eq, granted_bind _ _ fun position => s.setByte position b]

/-- A range of bytes is read if there is no fault in its bounds. -/
theorem fetchBytes_eq (length : Nat) :
    s.fetchBytes address length =
      granted (byteFault? s.size address length) (s.bytesAt address.toNat length) := by
  rw [fetchBytes, byteRange_eq, granted_bind _ _ fun position => s.bytesAt position length]

end DataSpace

namespace Machine

variable {m : Machine} {address x : Cell} {rest : List Cell}

/-- The top cell can be taken. -/
theorem pop_eq (h : m.data.cells = address :: rest) :
    m.data.pop = .ok (address, ⟨rest, m.data.room + 1⟩) :=
  Stack.pop_eq_ok.mpr ⟨h, rfl⟩

/-- The word that reads a cell replaces the address by the cell. -/
theorem fetchWord_eq (h : m.data.cells = address :: rest) :
    m.fetchWord = granted (cellFault? m.space.size address)
      { m with data := ⟨m.space.cellAt address.toNat :: rest, m.data.room⟩ } := by
  simp only [fetchWord, pop_eq h, bind, Except.bind, DataSpace.fetch_eq]
  cases cellFault? m.space.size address <;> rfl

/-- The word that reads a byte replaces the address by the byte. -/
theorem fetchByteWord_eq (h : m.data.cells = address :: rest) :
    m.fetchByteWord = granted (byteFault? m.space.size address 1)
      { m with data := ⟨(m.space.byteAt address.toNat).toUInt64 :: rest, m.data.room⟩ } := by
  simp only [fetchByteWord, pop_eq h, bind, Except.bind, DataSpace.fetchByte_eq]
  cases byteFault? m.space.size address 1 <;> rfl

/-- The two top cells can be taken. -/
theorem popPair_eq (h : m.data.cells = address :: x :: rest) :
    m.data.popPair = .ok (x, address, ⟨rest, m.data.room + 2⟩) := by
  unfold Stack.popPair
  rw [h]

/-- The word that writes a cell takes the address and the cell. -/
theorem storeWord_eq (h : m.data.cells = address :: x :: rest) :
    m.storeWord = granted (cellFault? m.space.size address)
      { m with space := m.space.setCell address.toNat x, data := ⟨rest, m.data.room + 2⟩ } := by
  simp only [storeWord, popPair_eq h, bind, Except.bind, DataSpace.store_eq]
  cases cellFault? m.space.size address <;> rfl

/-- The word that writes a byte takes the address and the cell with the byte. -/
theorem storeByteWord_eq (h : m.data.cells = address :: x :: rest) :
    m.storeByteWord = granted (byteFault? m.space.size address 1)
      { m with
        space := m.space.setByte address.toNat x.toUInt8, data := ⟨rest, m.data.room + 2⟩ } := by
  simp only [storeByteWord, popPair_eq h, bind, Except.bind, DataSpace.storeByte_eq]
  cases byteFault? m.space.size address 1 <;> rfl

/-- All accesses to a machine's data space, by requests and by words with their operands on the
stack: the conditions are the same, and so is what is read and written. -/
structure Accessible (m : Machine) (size : Nat) (host : HostRunner) (budget : Nat) : Prop where
  fetchCell (address : Cell) : Request.perform host budget (.fetchCell address) m =
    some (m.inspect (granted (cellFault? size address) (m.space.cellAt address.toNat)))
  storeCell (address x : Cell) : Request.perform host budget (.storeCell address x) m =
    some (m.attempt (granted (cellFault? size address)
      { m with space := m.space.setCell address.toNat x }))
  readBytes (address length : Cell) : Request.perform host budget (.readBytes address length) m =
    some (m.inspect (granted (byteFault? size address length.toNat)
      ((List.range length.toNat).map fun place => m.space.byteAt (address.toNat + place))))
  fetch {address : Cell} {rest : List Cell} : m.data.cells = address :: rest →
    m.dispatch host .fetch =
    some (m.attempt (granted (cellFault? size address)
      { m with data := ⟨m.space.cellAt address.toNat :: rest, m.data.room⟩ }))
  store {address x : Cell} {rest : List Cell} : m.data.cells = address :: x :: rest →
    m.dispatch host .store =
    some (m.attempt (granted (cellFault? size address)
      { m with space := m.space.setCell address.toNat x, data := ⟨rest, m.data.room + 2⟩ }))
  cFetch {address : Cell} {rest : List Cell} : m.data.cells = address :: rest →
    m.dispatch host .cFetch =
    some (m.attempt (granted (byteFault? size address 1)
      { m with data := ⟨(m.space.byteAt address.toNat).toUInt64 :: rest, m.data.room⟩ }))
  cStore {address x : Cell} {rest : List Cell} : m.data.cells = address :: x :: rest →
    m.dispatch host .cStore =
    some (m.attempt (granted (byteFault? size address 1)
      { m with space := m.space.setByte address.toNat x.toUInt8, data := ⟨rest, m.data.room + 2⟩ }))

/-- Data space is accessible by all of these ways at its size. -/
theorem accessible (m : Machine) (host : HostRunner) (budget : Nat) :
    m.Accessible m.space.size host budget where
  fetchCell address := congrArg (fun reading => some (m.inspect reading)) (m.space.fetch_eq address)
  storeCell address x := by
    change some (m.attempt (m.storeCell address x)) = _
    rw [storeCell, DataSpace.store_eq]
    cases cellFault? m.space.size address <;> rfl
  readBytes address length := by
    change some (m.inspect (m.space.fetchBytes address length.toNat)) = _
    rw [DataSpace.fetchBytes_eq, DataSpace.bytesAt, Memory.read, List.range'_eq_map_range,
      List.map_map]
    rfl
  fetch h := congrArg (fun change => some (m.attempt change)) (fetchWord_eq h)
  store h := congrArg (fun change => some (m.attempt change)) (storeWord_eq h)
  cFetch h := congrArg (fun change => some (m.attempt change)) (fetchByteWord_eq h)
  cStore h := congrArg (fun change => some (m.attempt change)) (storeByteWord_eq h)

end Machine

/-- Bytes that write a cell write a number below the power of their number, and the first one is its
last digit. -/
theorem Cell.toNat_ofBytes_cons (b : UInt8) {rest : List UInt8} (h : rest.length < 8) :
    (ofBytes rest).toNat < 256 ^ rest.length ∧
    (ofBytes (b :: rest)).toNat = b.toNat + 256 * (ofBytes rest).toNat := by
  have hbound : (ofBytes rest).toNat < 256 ^ rest.length := by
    cases rest with
    | nil => decide
    | cons c rest =>
        obtain ⟨hlt, heq⟩ := toNat_ofBytes_cons c (Nat.lt_of_succ_lt h)
        have hc := c.toNat_lt
        rw [heq, List.length_cons, pow_succ]
        omega
  have hpow : 256 ^ rest.length ≤ 256 ^ 7 := Nat.pow_le_pow_right (by decide) (Nat.le_of_lt_succ h)
  have hb := b.toNat_lt
  refine ⟨hbound, ?_⟩
  rw [ofBytes, UInt64.toNat_add, UInt64.toNat_mul, UInt8.toNat_toUInt64,
    show UInt64.toNat 256 = 256 from rfl]
  omega

/-- Up to eight bytes of a memory write the sum of the bytes weighted by their places. -/
theorem Memory.toNat_ofBytes_read (memory : Memory) {count : Nat} (h : count ≤ 8) (position : Nat) :
    (Cell.ofBytes (memory.read position count)).toNat =
      ∑ place ∈ Finset.range count, 256 ^ place * (memory.get (position + place)).toNat := by
  induction count generalizing position with
  | zero => rfl
  | succ count ih =>
      have hread : memory.read position (count + 1) =
          memory.get position :: memory.read (position + 1) count := rfl
      have hshift : ∀ place, 256 ^ (place + 1) * (memory.get (position + (place + 1))).toNat =
          256 * (256 ^ place * (memory.get (position + 1 + place)).toNat) := by
        intro place
        rw [pow_succ', Nat.mul_assoc, Nat.add_assoc, Nat.add_comm 1]
      have hlength : (memory.read (position + 1) count).length < 8 := by rw [length_read]; exact h
      rw [hread, (Cell.toNat_ofBytes_cons _ hlength).2, ih (Nat.le_of_succ_le h),
        Finset.sum_range_succ', Finset.mul_sum]
      simp only [hshift, Nat.pow_zero, Nat.one_mul, Nat.add_zero]
      exact Nat.add_comm _ _

/-- A byte of a cell is the digit at its place in base 256. -/
theorem Cell.toNat_byte_eq_div (x : Cell) {place : Nat} (h : place < 8) :
    (x.byte place).toNat = x.toNat / 256 ^ place % 256 := by
  rw [Cell.toNat_byte x h, Nat.shiftRight_eq_div_pow, Nat.pow_mul]

/-- A cell has been written: it is read back, by bytes too, and no other cell or byte is read
differently. -/
structure DataSpace.StoresCell (s : DataSpace) (position : Nat) (x : Cell) (t : DataSpace) :
    Prop where
  cell : t.cellAt position = x
  byte {place : Nat} : place < 8 → (t.byteAt (position + place)).toNat = x.toNat / 256 ^ place % 256
  otherCell {other : Nat} : other + 8 ≤ position ∨ position + 8 ≤ other →
    t.cellAt other = s.cellAt other
  otherByte {other : Nat} : other < position ∨ position + 8 ≤ other →
    t.byteAt other = s.byteAt other

/-- Writing a cell writes its bytes at their places. -/
theorem Memory.get_setCell (memory : Memory) (position : Nat) (x : Cell) (other : Nat) :
    (memory.setCell position x).get other =
      if position ≤ other ∧ other < position + 8 then x.byte (other - position)
      else memory.get other := by
  rw [setCell, get_write]
  by_cases hlow : position ≤ other
  · by_cases hhigh : other < position + 8
    · have hplace : other - position < cellSize := by unfold cellSize; omega
      rw [if_pos hlow, if_pos ⟨hlow, hhigh⟩, Cell.toBytes, List.getElem?_map,
        List.getElem?_range hplace]
      rfl
    · rw [if_pos hlow, if_neg fun h => hhigh h.2, List.getElem?_eq_none, Option.getD_none]
      rw [Cell.length_toBytes]
      unfold cellSize
      omega
  · rw [if_neg hlow, if_neg fun h => hlow h.1]

/-- Writing a cell is coherent with reading cells and bytes. -/
theorem DataSpace.storesCell_setCell (s : DataSpace) (position : Nat) (x : Cell) :
    s.StoresCell position x (s.setCell position x) where
  cell := s.memory.getCell_setCell position x
  byte {place} hplace := by
    have hget := s.memory.get_setCell position x (position + place)
    rw [if_pos ⟨Nat.le_add_right _ _, Nat.add_lt_add_left hplace _⟩,
      Nat.add_sub_cancel_left] at hget
    exact (congrArg UInt8.toNat hget).trans (x.toNat_byte_eq_div hplace)
  otherCell {other} h := by
    refine Memory.getCell_congr fun address hlow hhigh => ?_
    unfold cellSize at hhigh
    exact (s.memory.get_setCell position x address).trans (if_neg (by omega))
  otherByte {other} h := (s.memory.get_setCell position x other).trans (if_neg (by omega))

/-- Some bytes of a cell, written one after the other at their places. -/
def DataSpace.setPlaces (s : DataSpace) (position : Nat) (x : Cell) (places : List Nat) :
    DataSpace :=
  places.foldl (fun t place => t.setByte (position + place) (x.byte place)) s

/-- Bytes of a cell that are written stand at the places that are named, in whatever order that has
been done. -/
theorem DataSpace.byteAt_setPlaces (s : DataSpace) (position : Nat) (x : Cell) (places : List Nat)
    (other : Nat) :
    (s.setPlaces position x places).byteAt other =
      if position ≤ other ∧ other - position ∈ places then x.byte (other - position)
      else s.byteAt other := by
  induction places generalizing s with
  | nil => simp [setPlaces]
  | cons place rest ih =>
      have hset : (s.setByte (position + place) (x.byte place)).byteAt other =
          if position + place = other then x.byte place else s.byteAt other :=
            s.memory.get_set _ _ _
      change ((s.setByte (position + place) (x.byte place)).setPlaces position x rest).byteAt
        other = _
      rw [ih, hset]
      by_cases hplace : position + place = other
      · subst hplace
        simp
      · have hne : position ≤ other → other - position ≠ place := by omega
        simp only [List.mem_cons, if_neg hplace]
        grind

/-- Writing all bytes of a cell in some order writes the cell. -/
theorem DataSpace.setPlaces_eq_setCell (s : DataSpace) (position : Nat) (x : Cell)
    {places : List Nat} (h : places.Perm (List.range 8)) :
    s.setPlaces position x places = s.setCell position x := by
  have hfixed : ∀ (t : DataSpace) (rest : List Nat), t.setPlaces position x rest =
      { t with memory := (t.setPlaces position x rest).memory } := by
    intro t rest
    induction rest generalizing t with
    | nil => rfl
    | cons place rest ih => exact ih (t.setByte (position + place) (x.byte place))
  have hmemory : (s.setPlaces position x places).memory = s.memory.setCell position x := by
    ext1 other
    have hmem : other - position ∈ places ↔ other - position < 8 := h.mem_iff.trans List.mem_range
    refine (s.byteAt_setPlaces position x places other).trans ?_
    rw [Memory.get_setCell]
    exact if_congr (by rw [hmem]; omega) rfl rfl
  rw [hfixed, hmemory]
  rfl

/-- The dictionary of a machine knows a primitive by its token. -/
def Machine.Knows (m : Machine) (p : Primitive) : Prop :=
  ∃ d, m.resolve (UInt64.ofNat p.token) = .ok d ∧ d.action = .primitive p

/-- A well-formed machine knows all primitives. -/
theorem Machine.WellFormed.knows {m : Machine} {config : Config} {arguments : List String}
    (h : m.WellFormed config arguments) (p : Primitive) : m.Knows p := by
  obtain ⟨d, hd, -, haction⟩ := h.resolve_token p
  exact ⟨d, hd, haction⟩

namespace Item

variable {m : Machine} (host : HostRunner) (budget : Nat) (rest : List Item)

/-- Literals are pushed one after the other. -/
theorem performAll_literals {operands : List Cell} (h : operands.length ≤ m.data.room) :
    performAll host budget (operands.map .literal ++ rest) m =
      performAll host budget rest { m with
        data := ⟨operands.reverse ++ m.data.cells, m.data.room - operands.length⟩ } := by
  induction operands generalizing m with
  | nil => rfl
  | cons x operands ih =>
      rw [List.length_cons] at h
      have hpush : Item.perform host budget (.literal x) m = some (.done () { m with
          data := ⟨x :: m.data.cells, m.data.room - 1⟩ }) :=
        congrArg (fun change => some (m.attempt change)) (Machine.push_of_room x (by omega))
      rw [List.map_cons, List.cons_append, performAll, hpush]
      refine (ih (show operands.length ≤ m.data.room - 1 by omega)).trans ?_
      rw [List.reverse_cons, List.append_assoc, List.length_cons, Nat.sub_sub, Nat.add_comm 1]
      rfl

/-- Operands are pushed, and a word that is oblivious of control does with them what it does
anywhere. -/
theorem performAll_apply {operands : List Cell} {p : Primitive} {f : Machine → Except Fault Machine}
    {n : Machine} (hroom : operands.length ≤ m.data.room)
    (heffect : p.effect? = some (Effect.change f)) (hcontrol : p.usesControl = false)
    (hknows : m.Knows p)
    (hf : f { m with data := ⟨operands.reverse ++ m.data.cells, m.data.room - operands.length⟩ } =
    .ok n) :
    performAll host budget (operands.map .literal ++ .word p :: rest) m =
      performAll host budget rest (n.withControl ⟨m.cursor, m.returns, some p.token⟩) := by
  let pushed : Machine :=
    { m with data := ⟨operands.reverse ++ m.data.cells, m.data.room - operands.length⟩ }
  have hdone : Effect.change f pushed = .done () n := congrArg pushed.attempt hf
  obtain ⟨d, hd, haction⟩ := hknows
  have hperform := Machine.execute_of_oblivious (m := pushed) host budget hd haction heffect
    (Primitive.effect_oblivious heffect hcontrol)
  rw [hdone, p.toNat_token] at hperform
  rw [performAll_literals host budget (.word p :: rest) hroom, performAll,
    show Item.perform host budget (.word p) pushed = _ from hperform]
  rfl

end Item

namespace Machine

variable {m : Machine} {config : Config} {arguments : List String} {address x : Cell}
  {host : HostRunner} {budget : Nat}

/-- Storing a cell: the host pushes the cell and the address and executes the word. -/
def storeItems (address x : Cell) : List Item := [.literal x, .literal address, .word .store]

/-- Storing a byte of a cell at its place: the host pushes a cell and the address and executes the
word. -/
def storeByteItems (address : Cell) (values : Nat → Cell) (place : Nat) : List Item :=
  [.literal (values place), .literal (address + UInt64.ofNat place), .word .cStore]

/-- Access is granted to each byte of a cell within bounds. -/
theorem byteFault?_place {size place : Nat} (hplace : place < 8) (hle : address.toNat + 8 ≤ size)
    (hsize : size ≤ Area.dataSpace.maximum) :
    (address + UInt64.ofNat place).toNat = address.toNat + place ∧
      byteFault? size (address + UInt64.ofNat place) 1 = none := by
  have hmaximum : Area.dataSpace.maximum = 0x40000000 := rfl
  have htoNat : (address + UInt64.ofNat place).toNat = address.toNat + place := by
    rw [UInt64.toNat_add, UInt64.toNat_ofNat', Nat.mod_eq_of_lt (a := place) (by omega),
      Nat.mod_eq_of_lt (by omega)]
  refine ⟨htoNat, ?_⟩
  rw [byteFault?_eq_none_iff, htoNat]
  omega

/-- Storing some bytes of a cell writes them at their places. -/
theorem performAll_storeBytes {values : Nat → Cell} {places : List Nat} (hroom : 2 ≤ m.data.room)
    (hknows : m.Knows .cStore) (hle : address.toNat + 8 ≤ m.space.size)
    (hsize : m.space.size ≤ Area.dataSpace.maximum)
    (hvalues : ∀ place < 8, (values place).toUInt8 = x.byte place)
    (hplaces : ∀ place ∈ places, place < 8) (host : HostRunner) (budget : Nat) :
    ∃ current, Item.performAll host budget (places.flatMap (storeByteItems address values)) m =
      some (.done () { m with
        space := m.space.setPlaces address.toNat x places, current := current }) := by
  induction places generalizing m with
  | nil => exact ⟨m.current, rfl⟩
  | cons place rest ih =>
      obtain ⟨hplace, hrest⟩ := List.forall_mem_cons.mp hplaces
      obtain ⟨htoNat, hfault⟩ := byteFault?_place hplace hle hsize
      let pushed : Machine := { m with
        data := ⟨(address + UInt64.ofNat place) :: values place :: m.data.cells, m.data.room - 2⟩ }
      have hstore := storeByteWord_eq (m := pushed) rfl
      rw [show pushed.space.size = m.space.size from rfl, hfault, htoNat, hvalues place hplace,
        Nat.sub_add_cancel hroom] at hstore
      obtain ⟨current, hperform⟩ := ih (m := { m with
        space := m.space.setByte (address.toNat + place) (x.byte place),
        current := some Primitive.cStore.token })
        hroom hknows hle hsize hrest
      refine ⟨current, ?_⟩
      rw [List.flatMap_cons]
      have hpair : [values place, address + UInt64.ofNat place].length ≤ m.data.room := hroom
      exact (Item.performAll_apply host budget _ hpair rfl rfl hknows hstore).trans hperform

/-- Storing a cell writes it. -/
theorem performAll_store (hroom : 2 ≤ m.data.room) (hknows : m.Knows .store)
    (haligned : 8 ∣ address.toNat) (hle : address.toNat + 8 ≤ m.space.size) (host : HostRunner)
    (budget : Nat) :
    Item.performAll host budget (storeItems address x) m =
      some (.done () { m with
        space := m.space.setCell address.toNat x, current := some Primitive.store.token }) := by
  let pushed : Machine := { m with data := ⟨address :: x :: m.data.cells, m.data.room - 2⟩ }
  have hstore := storeWord_eq (m := pushed) rfl
  rw [show pushed.space.size = m.space.size from rfl, cellFault?_eq_none_iff.mpr ⟨haligned, hle⟩,
    Nat.sub_add_cancel hroom] at hstore
  exact Item.performAll_apply host budget []
    (show [x, address].length ≤ m.data.room from hroom) rfl rfl hknows hstore

/-- Cells and bytes are two views of one memory in every live session. All accesses, by requests and
by words, are granted under the same conditions and meet the same memory. A cell is the sum of its
bytes weighted by their places; a cell that has been stored is read back by both views, and all that
lies outside of it is as it was; and storing its bytes one at a time, in any order, stores the
cell. -/
theorem Live.views_coherent (live : Live config arguments m) (host : HostRunner) (budget : Nat) :
    m.Accessible config.dataSpace host budget ∧
    (∀ address : Cell,
      (cellFault? config.dataSpace address = none ↔
        8 ∣ address.toNat ∧ address.toNat + 8 ≤ config.dataSpace) ∧
      ∀ length, byteFault? config.dataSpace address length = none ↔
        address.toNat + length ≤ config.dataSpace) ∧
    (∀ position, (m.space.cellAt position).toNat =
      ∑ place ∈ Finset.range 8, 256 ^ place * (m.space.byteAt (position + place)).toNat) ∧
    ∀ address x : Cell, 8 ∣ address.toNat → address.toNat + 8 ≤ config.dataSpace →
      m.space.StoresCell address.toNat x (m.space.setCell address.toNat x) ∧
      (2 ≤ m.data.room → ∃ n, n.Accessible config.dataSpace host budget ∧
        n.space = m.space.setCell address.toNat x ∧
        Item.performAll host budget (storeItems address x) m = some (.done () n) ∧
        ∀ (places : List Nat) (values : Nat → Cell), places.Perm (List.range 8) →
          (∀ place < 8, (values place).toUInt8.toNat = x.toNat / 256 ^ place % 256) →
          ∃ o, Item.performAll host budget (places.flatMap (storeByteItems address values)) m =
            some (.done () o) ∧ o.space = n.space) := by
  have hwell := live.wellFormed
  have hsize : m.space.size ≤ Area.dataSpace.maximum := hwell.space_size ▸ hwell.valid.dataSpace.2
  refine ⟨hwell.space_size ▸ m.accessible host budget, fun address => ?_, fun position => ?_,
    fun address x haligned hle => ?_⟩
  · exact ⟨cellFault?_eq_none_iff, fun length => byteFault?_eq_none_iff⟩
  · exact m.space.memory.toNat_ofBytes_read (Nat.le_refl 8) position
  · rw [← hwell.space_size] at hle
    refine ⟨m.space.storesCell_setCell address.toNat x, fun hroom => ?_⟩
    refine ⟨_, hwell.space_size ▸ accessible _ host budget, rfl,
      performAll_store hroom (hwell.knows .store) haligned hle host budget,
      fun places values hperm hvalues => ?_⟩
    have hbytes : ∀ place < 8, (values place).toUInt8 = x.byte place := fun place hplace =>
      UInt8.toNat_inj.mp ((hvalues place hplace).trans (x.toNat_byte_eq_div hplace).symm)
    obtain ⟨current, hperform⟩ := performAll_storeBytes hroom (hwell.knows .cStore) hle hsize hbytes
      (fun place hplace => List.mem_range.mp (hperm.mem_iff.mp hplace)) host budget
    exact ⟨_, hperform, m.space.setPlaces_eq_setCell address.toNat x hperm⟩

/-- In the last cell of data space, the bytes of a cell stored from the outside in are the cell. -/
theorem Live.views_coherent_last :
    ∃ m n o, Machine.boot { dataSpace := 40, dictionary := 77, inputBuffer := 8 } [] .null {} =
      .ok m ∧
      Item.performAll (HostCode.run 0) 0 (storeItems 32 0x0102030405060708) m = some (.done () n) ∧
      Item.performAll (HostCode.run 0) 0
        ([7, 0, 6, 1, 5, 2, 4, 3].flatMap (storeByteItems 32 fun place =>
        0x0102030405060708 >>> UInt64.ofNat (8 * place))) m = some (.done () o) ∧
      o.space = n.space ∧
      (Operation.ask (.fetchCell 32)).perform 0 n = some (.done 0x0102030405060708 n) ∧
      (n.space.byteAt 39).toNat = 1 ∧ n.space.cellAt 24 = m.space.cellAt 24 ∧
      (Operation.ask (.fetchCell 41)).perform 0 n =
        some (.halted (.fault (.unalignedAccess 41)) n) ∧
      (Operation.ask (.fetchCell 40)).perform 0 n =
        some (.halted (.fault (.addressOutOfBounds 40 8)) n) := by
  have hsession :
      ((Machine.boot { dataSpace := 40, dictionary := 77, inputBuffer := 8 } [] .null
        {}).toOption.any
      fun m => decide (2 ≤ m.data.room)) = true := by decide +kernel
  obtain ⟨m, hm, hroom⟩ := exists_ok_of_any hsession
  obtain ⟨-, -, -, hstore⟩ := (Live.boot hm).views_coherent (HostCode.run 0) 0
  obtain ⟨hstores, hperform⟩ := hstore 32 0x0102030405060708 (by decide) (by decide)
  obtain ⟨n, haccess, hspace, hn, hplaces⟩ := hperform (of_decide_eq_true hroom)
  obtain ⟨o, ho, hsame⟩ := hplaces [7, 0, 6, 1, 5, 2, 4, 3]
    (fun place => 0x0102030405060708 >>> UInt64.ofNat (8 * place)) (by decide) (by decide)
  rw [← hspace] at hstores
  refine ⟨m, n, o, hm, hn, ho, hsame, ?_, ?_, ?_, ?_, ?_⟩
  · exact (haccess.fetchCell 32).trans (by rw [hstores.cell]; rfl)
  · exact hstores.byte (show 7 < 8 by decide)
  · exact hstores.otherCell (.inl (by decide))
  · exact haccess.fetchCell 41
  · exact haccess.fetchCell 40

end Machine

end ThreadedForth
