import ThreadedForth.Proofs.ByteView
import ThreadedForth.Proofs.Shadowing

/-!
# Looking up counted strings

A counted string is a byte with a length and as many bytes of a name after it. The word that looks
one up answers as the host's lookup of the same name does, wherever in data space the string lies,
up to its very end. It is refused exactly when the string reaches out of data space, or when there
is an answer and no room for it.
-/

namespace ThreadedForth

/-- A counted string lies in data space: its length at a position, and its name right after it. -/
structure DataSpace.CountedAt (s : DataSpace) (position : Nat) (name : List UInt8) : Prop where
  length : (s.byteAt position).toNat = name.length
  bytes : s.bytesAt (position + 1) name.length = name
  le : position + 1 + name.length ≤ s.size

/-- No definition of an orderly dictionary is found by a name of more than 255 bytes. -/
theorem Dictionary.Orderly.find?_eq_none {d : Dictionary} {limit : Nat} (h : d.Orderly limit)
    {name : List UInt8} (hlong : 255 < name.length) : d.find? name = none := by
  rw [Dictionary.find?_eq_none_iff]
  rintro token ⟨definition, hget, -, hsame⟩
  have hlength : definition.name.utf8ByteSize = name.length := hsame.length_eq
  have hle : definition.name.utf8ByteSize ≤ 255 := h.name_le hget
  omega

namespace Machine

variable {m : Machine} {config : Config} {arguments : List String} {address : Cell}
  {rest : List Cell} {name : List UInt8}

/-- The faults for which looking up a counted string is refused. -/
inductive FindRefused (m : Machine) (address : Cell) : Fault → Prop where
  | length : m.space.size ≤ address.toNat → FindRefused m address (.addressOutOfBounds address 1)
  | name : address.toNat < m.space.size →
      m.space.size < address.toNat + 1 + (m.space.byteAt address.toNat).toNat →
      FindRefused m address (.addressOutOfBounds (address + 1) (m.space.byteAt address.toNat).toNat)
  | full {name : List UInt8} {token : Nat} : m.space.CountedAt address.toNat name →
      m.dictionary.find? name = some token → m.data.room = 0 →
      FindRefused m address (.stackOverflow .data m.data.capacity)

/-- The cell that tells whether a definition that has been found is immediate. -/
def answerCell (m : Machine) (token : Nat) : Cell :=
  if (m.dictionary.get? token).any (·.immediate) then 1 else 0xFFFFFFFFFFFFFFFF

/-- What follows an address inside data space does not wrap. -/
theorem toNat_succ_of_lt (hsize : m.space.size ≤ Area.dataSpace.maximum)
    (h : address.toNat < m.space.size) : (address + 1).toNat = address.toNat + 1 := by
  have hmaximum : Area.dataSpace.maximum = 0x40000000 := rfl
  rw [UInt64.toNat_add, show UInt64.toNat 1 = 1 from rfl, Nat.mod_eq_of_lt (by omega)]

/-- A length that is out of bounds is refused. -/
theorem findWord_of_length (hcells : m.data.cells = address :: rest)
    (h : m.space.size ≤ address.toNat) : m.findWord = .error (.addressOutOfBounds address 1) := by
  have hfault : byteFault? m.space.size address 1 = some (.addressOutOfBounds address 1) :=
    if_pos (Nat.lt_succ_of_le h)
  simp only [findWord, pop_eq hcells, bind, Except.bind, DataSpace.fetchByte_eq, hfault]
  rfl

/-- A name that reaches out of bounds is refused. -/
theorem findWord_of_name (hcells : m.data.cells = address :: rest)
    (hsize : m.space.size ≤ Area.dataSpace.maximum) (h : address.toNat < m.space.size)
    (hname : m.space.size < address.toNat + 1 + (m.space.byteAt address.toNat).toNat) :
    m.findWord =
      .error (.addressOutOfBounds (address + 1) (m.space.byteAt address.toNat).toNat) := by
  have hbyte : byteFault? m.space.size address 1 = none := byteFault?_eq_none_iff.mpr h
  have hfault : byteFault? m.space.size (address + 1) (m.space.byteAt address.toNat).toNat =
      some (.addressOutOfBounds (address + 1) (m.space.byteAt address.toNat).toNat) :=
    if_pos (by rw [toNat_succ_of_lt hsize h]; exact hname)
  simp only [findWord, pop_eq hcells, bind, Except.bind, DataSpace.fetchByte_eq, hbyte, granted,
    Option.elim_none, DataSpace.fetchBytes_eq, hfault, Option.elim_some]

/-- A counted string that the word can read is answered with zero, or with a token and a flag if
there is room. -/
theorem findWord_of_countedAt (hcells : m.data.cells = address :: rest)
    (hsize : m.space.size ≤ Area.dataSpace.maximum) (h : m.space.CountedAt address.toNat name) :
    m.findWord =
      (m.dictionary.find? name).elim (.ok { m with data := ⟨0 :: rest, m.data.room⟩ }) fun token =>
      if m.data.room = 0 then .error (.stackOverflow .data m.data.capacity)
      else .ok { m with
        data := ⟨m.answerCell token :: UInt64.ofNat token :: rest, m.data.room - 1⟩ } := by
  let popped : Stack .data := ⟨rest, m.data.room + 1⟩
  have hpop : m.data.pop = .ok (address, popped) := pop_eq hcells
  have hlt : address.toNat < m.space.size := by have hle := h.le; omega
  have hbyte : m.space.fetchByte address = .ok (m.space.byteAt address.toNat) := by
    rw [DataSpace.fetchByte_eq, byteFault?_eq_none_iff.mpr hlt]
    rfl
  have hbytes : m.space.fetchBytes (address + 1) (m.space.byteAt address.toNat).toNat =
      .ok name := by
    have hnone : byteFault? m.space.size (address + 1) name.length = none :=
      byteFault?_eq_none_iff.mpr (by rw [toNat_succ_of_lt hsize hlt]; exact h.le)
    rw [DataSpace.fetchBytes_eq, h.length, hnone, toNat_succ_of_lt hsize hlt, h.bytes]
    rfl
  simp only [findWord, hpop, bind, Except.bind, hbyte, hbytes]
  cases m.dictionary.find? name with
  | none => rfl
  | some token =>
      have hpush := fun answer => popped.pushAll_eq [UInt64.ofNat token, answer]
      have hoverflow : popped.overflow = .stackOverflow .data m.data.capacity :=
        congrArg (Fault.stackOverflow .data) (Stack.capacity_pop hpop)
      rw [Option.elim_some]
      dsimp only
      by_cases hroom : m.data.room = 0
      · rw [if_pos hroom, (hpush _).trans (if_neg (by simp [popped, hroom])), hoverflow]
      · rw [if_neg hroom, (hpush _).trans (if_pos (by simp [popped]; omega))]
        rfl

/-- A string that is not out of bounds is a counted string. -/
theorem countedAt_of_le
    (h : address.toNat + 1 + (m.space.byteAt address.toNat).toNat ≤ m.space.size) :
    m.space.CountedAt address.toNat
      (m.space.bytesAt (address.toNat + 1) (m.space.byteAt address.toNat).toNat) where
  length := (m.space.memory.length_read _ _).symm
  bytes := congrArg (m.space.bytesAt (address.toNat + 1)) (m.space.memory.length_read _ _)
  le := by rw [DataSpace.bytesAt, Memory.length_read]; exact h

/-- The word is refused exactly for these faults. -/
theorem findWord_eq_error_iff (hcells : m.data.cells = address :: rest)
    (hsize : m.space.size ≤ Area.dataSpace.maximum) {fault : Fault} :
    m.findWord = .error fault ↔ m.FindRefused address fault := by
  constructor
  · intro hfault
    by_cases hlength : m.space.size ≤ address.toNat
    · rw [findWord_of_length hcells hlength] at hfault
      cases hfault
      exact .length hlength
    by_cases hname : m.space.size < address.toNat + 1 + (m.space.byteAt address.toNat).toNat
    · rw [findWord_of_name hcells hsize (Nat.lt_of_not_le hlength) hname] at hfault
      cases hfault
      exact .name (Nat.lt_of_not_le hlength) hname
    have hcounted := countedAt_of_le (Nat.le_of_not_lt hname)
    rw [findWord_of_countedAt hcells hsize hcounted] at hfault
    cases hfind : m.dictionary.find?
      (m.space.bytesAt (address.toNat + 1) (m.space.byteAt address.toNat).toNat) with
    | none => rw [hfind] at hfault; cases hfault
    | some token =>
        rw [hfind, Option.elim_some] at hfault
        split at hfault
        · next hroom =>
            cases hfault
            exact .full hcounted hfind hroom
        · cases hfault
  · intro hrefused
    cases hrefused with
    | length hlength => exact findWord_of_length hcells hlength
    | name hlength hname => exact findWord_of_name hcells hsize hlength hname
    | full hcounted hfind hroom =>
        rw [findWord_of_countedAt hcells hsize hcounted, hfind]
        exact if_pos hroom

/-- Appending a byte: the host pushes it and executes the word. -/
def byteItems (b : UInt8) : List Item := [.literal b.toUInt64, .word .cComma]

/-- Appending bytes one at a time writes them from `here` on. -/
theorem performAll_bytes {bytes : List UInt8} (hroom : m.data.room ≠ 0) (hknows : m.Knows .cComma)
    (hspace : m.space.here + bytes.length < m.space.size) (host : HostRunner) (budget : Nat) :
    ∃ current, Item.performAll host budget (bytes.flatMap byteItems) m = some (.done () { m with
      space := { m.space with
        here := m.space.here + bytes.length
        memory := m.space.memory.write m.space.here bytes }
      current := current }) := by
  induction bytes generalizing m with
  | nil => exact ⟨m.current, rfl⟩
  | cons b rest ih =>
      rw [List.length_cons] at hspace
      let pushed : Machine := { m with data := ⟨b.toUInt64 :: m.data.cells, m.data.room - 1⟩ }
      let appended : DataSpace :=
        { m.space with here := m.space.here + 1, memory := m.space.memory.set m.space.here b }
      have hpop : pushed.data.pop = .ok (b.toUInt64, m.data) :=
        Stack.pop_eq_ok.mpr ⟨rfl, Nat.sub_add_cancel (Nat.pos_of_ne_zero hroom)⟩
      have happend : m.space.append [b.toUInt64.toUInt8] = .ok appended := by
        refine DataSpace.append_eq_ok.mpr ⟨?_, by rw [UInt8.toUInt8_toUInt64]; rfl⟩
        rw [List.length_singleton]
        omega
      have hword : pushed.byteCommaWord = .ok { m with space := appended } := by
        simp only [byteCommaWord, hpop, bind, Except.bind]
        rw [show pushed.space = m.space from rfl, happend]
        rfl
      obtain ⟨current, hperform⟩ := ih
        (m := { m with space := appended, current := some Primitive.cComma.token })
        hroom hknows (show m.space.here + 1 + rest.length < m.space.size by omega)
      refine ⟨current, ?_⟩
      rw [List.flatMap_cons]
      have hcomma : Item.performAll host budget (byteItems b ++ rest.flatMap byteItems) m =
          Item.performAll host budget (rest.flatMap byteItems) { m with
            space := appended, current := some Primitive.cComma.token } :=
        Item.performAll_apply host budget (rest.flatMap byteItems)
          (show [b.toUInt64].length ≤ m.data.room from Nat.pos_of_ne_zero hroom) rfl rfl hknows
            hword
      rw [hcomma, hperform, List.length_cons, Nat.add_comm rest.length 1, ← Nat.add_assoc]
      rfl

/-- The length of a name and its bytes, laid down at `here`, are a counted string. -/
theorem countedAt_of_write {s : DataSpace} (hlength : name.length ≤ 255)
    (hspace : s.here + 1 + name.length ≤ s.size) (here : Nat) :
    DataSpace.CountedAt { s with
      here := here
      memory := s.memory.write s.here (UInt8.ofNat name.length :: name) } s.here name where
  length := by
    have hget :
        ((s.memory.set s.here (UInt8.ofNat name.length)).write (s.here + 1) name).get s.here =
        UInt8.ofNat name.length := by
      rw [Memory.get_write_of_lt _ _ (Nat.lt_succ_self _), Memory.get_set, if_pos rfl]
    refine (congrArg UInt8.toNat hget).trans ?_
    rw [UInt8.toNat_ofNat', Nat.mod_eq_of_lt (by omega)]
  bytes := (s.memory.set s.here (UInt8.ofNat name.length)).read_write (s.here + 1) name
  le := hspace

/-- A session goes on when its host goes through items. -/
theorem Live.performAll (live : Live config arguments m) {items : List Item} {budget : Nat}
    {outcome : Outcome Unit}
    (h : Item.performAll (HostCode.run budget) budget items m = some outcome) :
    Live config arguments outcome.machine := by
  have hitem : ∀ {m : Machine} {item : Item} {outcome : Outcome Unit}, Live config arguments m →
      item.perform (HostCode.run budget) budget m = some outcome →
      Live config arguments outcome.machine := by
    intro m item outcome live hperform
    cases item with
    | literal x => exact live.perform (.ask (.push x)) budget hperform
    | word p => exact live.perform (.ask (.execute (UInt64.ofNat p.token))) budget hperform
    | call token => exact live.perform (.ask (.execute (UInt64.ofNat token))) budget hperform
  induction items generalizing m with
  | nil => cases h; exact live
  | cons item rest ih =>
      rw [Item.performAll] at h
      split at h
      · next n hdone => exact ih (hitem live hdone) h
      · next hstopped => exact hitem live h

/-- A definition that is found has a token that is a cell. -/
theorem WellFormed.toNat_ofNat_of_find (h : m.WellFormed config arguments) {token : Nat}
    (hfind : m.dictionary.find? name = some token) :
    ∃ definition, m.dictionary.get? token = some definition ∧
      (UInt64.ofNat token).toNat = token := by
  have hanswers := (Dictionary.find?_eq_some_iff.mp hfind).1
  have hlt := hanswers.lt_size
  have hsize : m.dictionary.size ≤ 0x100000 :=
    Nat.le_trans (h.dictionary_capacity ▸ h.orderly.size_le) h.valid.dictionary.2
  obtain ⟨definition, hget, -⟩ := hanswers
  refine ⟨definition, hget, ?_⟩
  rw [UInt64.toNat_ofNat', Nat.mod_eq_of_lt (by omega)]

/-- Looking up a counted string agrees with the host's lookup in every live session. The address is
replaced by zero on a miss, and by the token and a cell that tells whether it is immediate on a hit.
The word is refused exactly when the string reaches out of data space or a hit finds no room.
Strings laid down byte by byte are counted strings, and a name of more than 255 bytes is never
found. -/
theorem Live.find_agrees (live : Live config arguments m) (budget : Nat) :
    m.space.size = config.dataSpace ∧ m.data.capacity = config.dataStack ∧
    (∀ (host : HostRunner) address rest, m.data.cells = address :: rest →
      (∀ name, m.space.CountedAt address.toNat name →
        (m.dictionary.find? name = none →
          m.dispatch host .find = some (.done () { m with data := ⟨0 :: rest, m.data.room⟩ })) ∧
        ∀ token, m.dictionary.find? name = some token →
          ∃ definition, m.dictionary.get? token = some definition ∧
          (UInt64.ofNat token).toNat = token ∧
          (m.data.room ≠ 0 → m.dispatch host .find = some (.done () { m with
            data := ⟨(if definition.immediate then 1 else 0xFFFFFFFFFFFFFFFF) ::
              UInt64.ofNat token :: rest, m.data.room - 1⟩ }))) ∧
      ∀ reason n, m.dispatch host .find = some (.halted reason n) ↔
        n = m ∧ ∃ fault, reason = .fault fault ∧ m.FindRefused address fault) ∧
    (∀ text, (Operation.ask (.find text)).perform budget m =
      some (.done (m.dictionary.find? (Name.bytes text)) m)) ∧
    (∀ name : List UInt8, name.length ≤ 255 → m.data.room ≠ 0 →
      m.space.here + 1 + name.length < config.dataSpace →
      ∃ n, Item.performAll (HostCode.run budget) budget
        ((UInt8.ofNat name.length :: name).flatMap byteItems) m =
          some (.done () n) ∧ Live config arguments n ∧ n.dictionary = m.dictionary ∧
          n.data = m.data ∧
        n.space.CountedAt m.space.here name) ∧
    ∀ name : List UInt8, 255 < name.length → m.dictionary.find? name = none := by
  have hwell := live.wellFormed
  have hsize : m.space.size ≤ Area.dataSpace.maximum := hwell.space_size ▸ hwell.valid.dataSpace.2
  refine ⟨hwell.space_size, hwell.data_capacity,
    fun host address rest hcells => ⟨fun name hcounted => ?_, ?_⟩, fun text => rfl,
    fun name hlength hroom hspace => ?_, fun name => hwell.orderly.find?_eq_none⟩
  · have hword := findWord_of_countedAt hcells hsize hcounted
    refine ⟨fun hmiss => ?_, fun token hhit => ?_⟩
    · rw [hmiss] at hword
      exact congrArg (fun change => some (m.attempt change)) hword
    · obtain ⟨definition, hget, htoken⟩ := hwell.toNat_ofNat_of_find hhit
      refine ⟨definition, hget, htoken, fun hroom => ?_⟩
      rw [hhit, Option.elim_some, if_neg hroom, answerCell, hget] at hword
      exact congrArg (fun change => some (m.attempt change)) hword
  · intro reason n
    change some (m.attempt m.findWord) = _ ↔ _
    simp only [← findWord_eq_error_iff hcells hsize]
    cases m.findWord with
    | ok changed => simp [attempt]
    | error fault => simp [attempt, eq_comm, and_comm]
  · have hroomy : m.space.here + (UInt8.ofNat name.length :: name).length < m.space.size := by
      rw [hwell.space_size, List.length_cons]
      omega
    obtain ⟨current, hperform⟩ :=
      performAll_bytes hroom (hwell.knows .cComma) hroomy (HostCode.run budget) budget
    refine ⟨_, hperform, live.performAll hperform, rfl, rfl, countedAt_of_write hlength ?_ _⟩
    rw [hwell.space_size]
    omega

/-- A small configuration with a data stack of a given capacity. -/
def smallConfig (dataStack : Nat) : Config :=
  { dataSpace := 40, dictionary := 77, inputBuffer := 8, dataStack := dataStack }

/-- A session in which a name is stored in the last bytes of data space and its address is
pushed. -/
def nameAtEnd (dataStack : Nat) (check : Machine → Bool) : Bool :=
  (Machine.boot (smallConfig dataStack) [] .null {}).toOption.any fun m =>
    ((Operation.ask (.storeCell 32 0x7055640300000000)).perform 0 m).endsWith none fun n =>
      ((Operation.ask (.push 36)).perform 0 n).endsWith none check

/-- What passes the check in such a session is live. -/
theorem live_of_nameAtEnd {dataStack : Nat} {check : Machine → Bool}
    (h : nameAtEnd dataStack check = true) :
    ∃ m, Live (smallConfig dataStack) [] m ∧ check m = true := by
  obtain ⟨k, hk, h⟩ := exists_ok_of_any h
  obtain ⟨_, n, hn, h⟩ := Run.exists_done h
  obtain ⟨_, m, hm, h⟩ := Run.exists_done h
  exact ⟨m, ((Live.boot hk).perform _ 0 hn).perform _ 0 hm, h⟩

/-- A name that ends with data space is found in another case, unless the stack holds nothing but
its address. -/
theorem Live.find_agrees_end :
    (∃ m n, Live (smallConfig 2) [] m ∧ m.data.cells = [36] ∧
      m.space.CountedAt 36 (Name.bytes "dUp") ∧
      m.dispatch (HostCode.run 0) .find = some (.done () n) ∧
      n.data.cells = [0xFFFFFFFFFFFFFFFF, UInt64.ofNat Primitive.dup.token]) ∧
    ∃ m, Live (smallConfig 1) [] m ∧ m.data.cells = [36] ∧
      m.dispatch (HostCode.run 0) .find = some (.halted (.fault (.stackOverflow .data 1)) m) := by
  have hholds : ∀ dataStack, nameAtEnd dataStack
      (fun m => m.data.cells == [36] && m.data.room == dataStack - 1 &&
      m.space.byteAt 36 == 3 && m.space.bytesAt 37 3 == Name.bytes "dUp" &&
      m.dictionary.find? (Name.bytes "dUp") == some Primitive.dup.token &&
      (m.dictionary.get? Primitive.dup.token).any (!·.immediate)) = true →
      ∃ m, Live (smallConfig dataStack) [] m ∧ m.data.cells = [36] ∧ m.data.room = dataStack - 1 ∧
        m.space.CountedAt 36 (Name.bytes "dUp") ∧
        m.dictionary.find? (Name.bytes "dUp") = some Primitive.dup.token ∧
        (m.dictionary.get? Primitive.dup.token).any (!·.immediate) = true := by
    intro dataStack hsession
    obtain ⟨m, live, hchecks⟩ := live_of_nameAtEnd hsession
    simp only [Bool.and_eq_true, beq_iff_eq] at hchecks
    obtain ⟨⟨⟨⟨⟨hcells, hroom⟩, hlength⟩, hbytes⟩, hfind⟩, hplain⟩ := hchecks
    refine ⟨m, live, hcells, hroom, ⟨by rw [hlength]; rfl, hbytes, ?_⟩, hfind, hplain⟩
    rw [live.wellFormed.space_size]
    exact show 36 + 1 + (Name.bytes "dUp").length ≤ 40 by decide
  constructor
  · obtain ⟨m, live, hcells, hroom, hcounted, hfind, hplain⟩ := hholds 2 (by decide +kernel)
    obtain ⟨-, -, hdispatch, -⟩ := live.find_agrees 0
    obtain ⟨definition, hget, -, hhit⟩ :=
      ((hdispatch (HostCode.run 0) 36 [] hcells).1 _ hcounted).2 _ hfind
    have himmediate : definition.immediate = false := by simpa [hget] using hplain
    rw [himmediate] at hhit
    exact ⟨m, _, live, hcells, hcounted, hhit (by rw [hroom]; decide), rfl⟩
  · obtain ⟨m, live, hcells, hroom, hcounted, hfind, -⟩ := hholds 1 (by decide +kernel)
    obtain ⟨-, hcapacity, hdispatch, -⟩ := live.find_agrees 0
    have hrefused : m.FindRefused 36 (.stackOverflow .data m.data.capacity) :=
      .full hcounted hfind hroom
    rw [hcapacity] at hrefused
    exact ⟨m, live, hcells, ((hdispatch (HostCode.run 0) 36 [] hcells).2 _ m).mpr
      ⟨rfl, _, rfl, hrefused⟩⟩

end Machine

end ThreadedForth
