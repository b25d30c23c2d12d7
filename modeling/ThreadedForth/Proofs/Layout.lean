import ThreadedForth.Proofs.Lines

/-!
# How a session starts

Data space is laid out from the bottom: the system area, the arguments one after the other, and
then, from the next cell boundary on, what the session will hand out. The primitives have no code
there, so each of them has that boundary for its body. This module gives the machine at the start of
a session in closed form, and from there the exact condition under which a session starts.
-/

namespace ThreadedForth

/-- Ranges that lie one after the other, from a first address up to a last one. -/
inductive Span.Consecutive : Nat → List Span → Nat → Prop where
  | nil (start : Nat) : Consecutive start [] start
  | cons {length stop : Nat} {rest : List Span} (start : Nat) :
      Consecutive (start + length) rest stop →
      Consecutive start (⟨start, length⟩ :: rest) stop

/-- The number of bytes that arguments take together. -/
def argumentsSize : List String → Nat
  | [] => 0
  | argument :: rest => argument.utf8ByteSize + argumentsSize rest

/-- The address behind the last argument. -/
def Config.argumentsEnd (config : Config) (arguments : List String) : Nat :=
  config.systemArea + argumentsSize arguments

/-- The entry of a primitive in the dictionary. -/
def Primitive.entry (p : Primitive) (body : Nat) : Definition :=
  { name := p.name, action := .primitive p, body := body, immediate := p.isImmediate }

/-- A cell boundary is its own next one. -/
theorem alignUp_alignUp (address : Nat) : alignUp (alignUp address) = alignUp address := by
  simp only [alignUp, cellSize]
  omega

/-- A text has as many bytes as its encoding takes. -/
theorem Name.length_bytes (name : String) : (Name.bytes name).length = name.utf8ByteSize := rfl

/-- No primitive has too long a name. -/
theorem Primitive.name_le (p : Primitive) : p.name.utf8ByteSize ≤ Name.maxLength := by
  cases p <;> decide

/-- The bytes of arguments one after the other are as many as the arguments take. -/
theorem length_flatMap_bytes (arguments : List String) :
    (arguments.flatMap Name.bytes).length = argumentsSize arguments := by
  induction arguments with
  | nil => rfl
  | cons argument rest ih =>
      rw [List.flatMap_cons, List.length_append, ih, Name.length_bytes, argumentsSize]

namespace Machine

variable {m n : Machine} {config : Config} {arguments : List String}

/-- The ranges that arguments take when they are laid from an address on. -/
def argumentSpans : Nat → List String → List Span
  | _, [] => []
  | start, argument :: rest =>
      ⟨start, argument.utf8ByteSize⟩ :: argumentSpans (start + argument.utf8ByteSize) rest

/-- There is one range for each argument. -/
theorem length_argumentSpans (start : Nat) (arguments : List String) :
    (argumentSpans start arguments).length = arguments.length := by
  induction arguments generalizing start with
  | nil => rfl
  | cons argument rest ih => rw [argumentSpans, List.length_cons, List.length_cons, ih]

/-- The ranges lie one after the other. -/
theorem argumentSpans_consecutive (start : Nat) (arguments : List String) :
    Span.Consecutive start (argumentSpans start arguments) (start + argumentsSize arguments) := by
  induction arguments generalizing start with
  | nil => exact .nil start
  | cons argument rest ih =>
      rw [argumentsSize, ← Nat.add_assoc]
      exact .cons start (ih _)

/-- An argument that has been laid is read from its range. -/
theorem read_argumentSpans (start : Nat) {index : Nat} {argument : String}
    (h : arguments[index]? = some argument) :
    ∃ span, (argumentSpans start arguments)[index]? = some span ∧
      span.address + span.length ≤ start + argumentsSize arguments ∧
      ∀ memory : Memory,
        (memory.write start (arguments.flatMap Name.bytes)).read span.address span.length =
          Name.bytes argument := by
  induction arguments generalizing start index with
  | nil => cases h
  | cons first rest ih =>
      rw [argumentsSize, ← Nat.add_assoc]
      cases index with
      | zero =>
          cases h
          exact ⟨_, rfl, Nat.le_add_right _ _, fun memory => memory.read_write_append start _ _⟩
      | succ index =>
          obtain ⟨span, hspan, hle, hread⟩ := ih (start + first.utf8ByteSize) h
          refine ⟨span, hspan, hle, fun memory => ?_⟩
          rw [List.flatMap_cons, Memory.write_append]
          exact hread _

/-- Arguments are laid exactly when they leave at least one byte. Their bytes follow each other from
`here` on. -/
theorem layArguments_eq_ok {s t : DataSpace} {spans : List Span} (hs : s.here < s.size) :
    layArguments s arguments = .ok (t, spans) ↔
      s.here + argumentsSize arguments < s.size ∧
        t = { s with
          here := s.here + argumentsSize arguments
          memory := s.memory.write s.here (arguments.flatMap Name.bytes) } ∧
        spans = argumentSpans s.here arguments := by
  induction arguments generalizing s t spans with
  | nil =>
      refine ⟨fun h => ?_, fun ⟨_, ht, hspans⟩ => by rw [ht, hspans]; rfl⟩
      cases h
      exact ⟨hs, rfl, rfl⟩
  | cons argument rest ih =>
      rw [argumentsSize, ← Nat.add_assoc, List.flatMap_cons, Memory.write_append]
      rw [layArguments, bind_eq_ok]
      constructor
      · rintro ⟨appended, happend, h⟩
        obtain ⟨hspace, rfl⟩ := DataSpace.append_eq_ok.mp happend
        obtain ⟨⟨u, others⟩, hrest, h⟩ := bind_eq_ok.mp h
        obtain ⟨hlt, rfl, rfl⟩ := (ih hspace).mp hrest
        cases h
        exact ⟨hlt, rfl, rfl⟩
      · rintro ⟨hlt, rfl, rfl⟩
        have hspace : s.here + (Name.bytes argument).length < s.size := by
          rw [Name.length_bytes]
          omega
        refine ⟨_, DataSpace.append_eq_ok.mpr ⟨hspace, rfl⟩,
          bind_eq_ok.mpr ⟨_, (ih hspace).mpr ⟨hlt, rfl, rfl⟩, rfl⟩⟩

/-- A machine with more primitives, all of which have the next cell boundary for their body. -/
def withPrimitives (m : Machine) (table : List Primitive) : Machine :=
  { m with
    dictionary :=
      ⟨m.dictionary.entries ++ (table.map (·.entry (alignUp m.space.here))).toArray,
        m.dictionary.capacity⟩
    space := { m.space with here := alignUp m.space.here } }

/-- Primitives may be added one before the others. -/
theorem withPrimitives_cons (m : Machine) (p : Primitive) (table : List Primitive) :
    (m.withPrimitives [p]).withPrimitives table = m.withPrimitives (p :: table) := by
  simp [withPrimitives, alignUp_alignUp]

/-- A primitive is added exactly when dictionary and data space allow it. -/
theorem define_primitive_eq_ok {p : Primitive} {token : Nat} :
    m.define p.name (.primitive p) p.isImmediate = .ok (token, n) ↔
      (m.dictionary.size < m.dictionary.capacity ∧ alignUp m.space.here < m.space.size) ∧
        token = m.dictionary.size ∧ n = m.withPrimitives [p] := by
  have hadded : m.withPrimitives [p] = { m with
      dictionary := ⟨m.dictionary.entries.push (p.entry (alignUp m.space.here)),
        m.dictionary.capacity⟩
      space := { m.space with here := alignUp m.space.here } } := by
    simp [withPrimitives]
  rw [define_eq_ok, hadded]
  exact ⟨fun ⟨hroom, hadded⟩ => ⟨hroom.2, hadded⟩,
    fun ⟨hroom, hadded⟩ => ⟨⟨p.name_le, hroom⟩, hadded⟩⟩

/-- Primitives are added exactly when the dictionary has room for them and the next cell boundary
lies in data space. -/
theorem definePrimitives_eq_ok {p : Primitive} {table : List Primitive} :
    m.definePrimitives (p :: table) = .ok n ↔
      (m.dictionary.size + (table.length + 1) ≤ m.dictionary.capacity ∧
        alignUp m.space.here < m.space.size) ∧ n = m.withPrimitives (p :: table) := by
  induction table generalizing m p with
  | nil =>
      rw [definePrimitives, bind_eq_ok]
      constructor
      · rintro ⟨⟨token, added⟩, hdefine, hn⟩
        obtain ⟨hroom, -, rfl⟩ := define_primitive_eq_ok.mp hdefine
        cases hn
        exact ⟨hroom, rfl⟩
      · rintro ⟨hroom, rfl⟩
        exact ⟨_, define_primitive_eq_ok.mpr ⟨hroom, rfl, rfl⟩, rfl⟩
  | cons q rest ih =>
      have hsize : (m.withPrimitives [p]).dictionary.size = m.dictionary.size + 1 := by
        simp [withPrimitives, Dictionary.size]
      have hhere : alignUp (m.withPrimitives [p]).space.here = alignUp m.space.here :=
        alignUp_alignUp _
      have hothers : (m.withPrimitives [p]).definePrimitives (q :: rest) = .ok n ↔
          (m.dictionary.size + (rest.length + 1 + 1) ≤ m.dictionary.capacity ∧
            alignUp m.space.here < m.space.size) ∧ n = m.withPrimitives (p :: q :: rest) := by
        rw [ih, hsize, hhere, withPrimitives_cons, Nat.add_assoc m.dictionary.size, Nat.add_comm 1]
        rfl
      rw [definePrimitives, bind_eq_ok, List.length_cons]
      constructor
      · rintro ⟨⟨token, added⟩, hdefine, hrest⟩
        obtain ⟨-, -, rfl⟩ := define_primitive_eq_ok.mp hdefine
        exact hothers.mp hrest
      · intro h
        have hcapacity : m.dictionary.size < m.dictionary.capacity := by
          have := h.1.1
          omega
        exact ⟨_, define_primitive_eq_ok.mpr ⟨⟨hcapacity, h.1.2⟩, rfl, rfl⟩, hothers.mpr h⟩

/-- The machine at the start of a session, given in closed form. -/
def atStart (config : Config) (arguments : List String) (console : Console) (clock : Clock) :
    Machine where
  config := config
  arguments := arguments
  data := .empty config.dataStack
  returns := .empty config.returnStack
  space :=
    { size := config.dataSpace
      here := alignUp (config.argumentsEnd arguments)
      memory := Memory.zero.write config.systemArea (arguments.flatMap Name.bytes) }
  dictionary :=
    ⟨(Primitive.all.map (·.entry (alignUp (config.argumentsEnd arguments)))).toArray,
      config.dictionary⟩
  cursor := none
  current := none
  lineLength := 0
  spans := argumentSpans config.systemArea arguments
  console := console
  clock := clock

/-- The state at the start of a session exists exactly when primitives fit the dictionary and the
cell boundary behind the arguments lies in data space. -/
theorem fresh_eq_ok_iff {console : Console} {clock : Clock}
    (hvalid : config.systemArea < config.dataSpace) :
    fresh config arguments console clock = .ok m ↔
      (Primitive.all.length ≤ config.dictionary ∧
        alignUp (config.argumentsEnd arguments) < config.dataSpace) ∧
        m = atStart config arguments console clock := by
  have hle := le_alignUp (config.argumentsEnd arguments)
  have hreserve : ∀ {reserved : DataSpace},
      (DataSpace.empty config.dataSpace).reserve config.systemArea = .ok reserved ↔
        reserved = ⟨config.dataSpace, config.systemArea, .zero⟩ := by
    intro reserved
    rw [DataSpace.reserve_eq_ok]
    simp only [DataSpace.empty, Nat.zero_add, hvalid, true_and]
  have hstart : withPrimitives
      ⟨config, arguments, .empty config.dataStack, .empty config.returnStack,
        ⟨config.dataSpace, config.argumentsEnd arguments,
          Memory.zero.write config.systemArea (arguments.flatMap Name.bytes)⟩,
        .empty config.dictionary, none, none, 0, argumentSpans config.systemArea arguments, console,
        clock⟩
      Primitive.all = atStart config arguments console clock := by
    simp [withPrimitives, atStart, Dictionary.empty]
  unfold fresh
  rw [bind_eq_ok, ← hstart]
  constructor
  · rintro ⟨reserved, hreserved, h⟩
    cases hreserve.mp hreserved
    obtain ⟨⟨space, spans⟩, hlaid, h⟩ := bind_eq_ok.mp h
    obtain ⟨-, rfl, rfl⟩ := (layArguments_eq_ok hvalid).mp hlaid
    obtain ⟨⟨hcount, hspace⟩, rfl⟩ := definePrimitives_eq_ok.mp h
    exact ⟨⟨Nat.zero_add Primitive.all.length ▸ hcount, hspace⟩, rfl⟩
  · rintro ⟨⟨hcount, hspace⟩, rfl⟩
    refine ⟨_, hreserve.mpr rfl,
      bind_eq_ok.mpr ⟨_, (layArguments_eq_ok hvalid).mpr ⟨?_, rfl, rfl⟩, ?_⟩⟩
    · exact Nat.lt_of_le_of_lt hle hspace
    · exact definePrimitives_eq_ok.mpr
        ⟨⟨(Nat.zero_add Primitive.all.length).symm ▸ hcount, hspace⟩, rfl⟩

/-- A session starts exactly when its configuration is valid and there is room for arguments and
primitives. -/
theorem boot_eq_ok_iff {console : Console} {clock : Clock} :
    Machine.boot config arguments console clock = .ok m ↔
      (config.Valid ∧ Primitive.all.length ≤ config.dictionary ∧
        alignUp (config.argumentsEnd arguments) < config.dataSpace) ∧
        m = atStart config arguments console clock := by
  rw [boot_eq_ok]
  constructor
  · rintro ⟨hvalid, hfresh⟩
    obtain ⟨hroom, hm⟩ := (fresh_eq_ok_iff hvalid.systemArea).mp hfresh
    exact ⟨⟨hvalid, hroom⟩, hm⟩
  · rintro ⟨⟨hvalid, hroom⟩, hm⟩
    exact ⟨hvalid, (fresh_eq_ok_iff hvalid.systemArea).mpr ⟨hroom, hm⟩⟩

/-- At the start of a session every primitive's token names its entry. -/
theorem resolve_atStart (config : Config) (arguments : List String) (console : Console)
    (clock : Clock) (p : Primitive) :
    (atStart config arguments console clock).resolve (UInt64.ofNat p.token) =
      .ok (p.entry (alignUp (config.argumentsEnd arguments))) := by
  rw [resolve_eq_ok, p.toNat_token]
  simp [Dictionary.get?, atStart, p.all_getElem?_token]

/-- At the start of a session every byte outside the arguments is zero. -/
theorem get_atStart {console : Console} {clock : Clock} {address : Nat}
    (h : address < config.systemArea ∨ config.argumentsEnd arguments ≤ address) :
    (atStart config arguments console clock).space.memory.get address = 0 := by
  have hlength := length_flatMap_bytes arguments
  change (Memory.zero.write config.systemArea (arguments.flatMap Name.bytes)).get address = 0
  rcases h with hlow | hhigh
  · rw [Memory.get_write_of_lt _ _ hlow, Memory.get_zero]
  · rw [Memory.get_write_of_le _ _ (hlength ▸ hhigh), Memory.get_zero]

/-- An argument's range replaces its index if there is room for one more cell. -/
theorem dispatch_arg {index : Cell} {rest : List Cell} {span : Span}
    (hcells : m.data.cells = index :: rest) (hspan : m.spans[index.toNat]? = some span)
    (host : HostRunner) :
    m.dispatch host .arg =
      if 1 ≤ m.data.room then
        some (.done () { m with
          data := ⟨[UInt64.ofNat span.length, UInt64.ofNat span.address] ++ rest,
            m.data.room - 1⟩ })
      else some (.halted (.fault m.data.overflow) m) := by
  let popped : Stack .data := ⟨rest, m.data.room + 1⟩
  have hpop : m.data.pop = .ok (index, popped) := Stack.pop_eq_ok.mpr ⟨hcells, rfl⟩
  have hoverflow : popped.overflow = m.data.overflow :=
    congrArg (Fault.stackOverflow .data) (Stack.capacity_pop hpop)
  have hpush := popped.pushAll_eq [UInt64.ofNat span.address, UInt64.ofNat span.length]
  change some (m.attempt m.argumentWord) = _
  simp only [argumentWord, hpop, bind, Except.bind, hspan]
  by_cases hroom : 1 ≤ m.data.room
  · rw [if_pos hroom, hpush.trans (if_pos (Nat.succ_le_succ hroom))]
    rfl
  · rw [if_neg hroom, hpush.trans (if_neg fun hle => hroom (Nat.le_of_succ_le_succ hle)), hoverflow]
    rfl

/-- At the start of a session the number of arguments can be asked for. -/
theorem argCount_atStart {console : Console} {clock : Clock} (hvalid : config.Valid)
    (host : HostRunner) :
    (atStart config arguments console clock).dispatch host .argCount = some (.done () {
      atStart config arguments console clock with
      data := ⟨[UInt64.ofNat arguments.length], config.dataStack - 1⟩ }) := by
  have hpush := push_of_room (m := atStart config arguments console clock)
    (UInt64.ofNat arguments.length)
    (Nat.ne_of_gt hvalid.dataStack.1)
  change some (attempt _ (push _ (UInt64.ofNat
    (argumentSpans config.systemArea arguments).length))) = _
  rw [length_argumentSpans, hpush]
  rfl

/-- At the start of a session each argument can be asked for, unless the data stack has only one
cell. -/
theorem arg_atStart {console : Console} {clock : Clock} (hvalid : config.Valid)
    (hspace : alignUp (config.argumentsEnd arguments) < config.dataSpace) {index : Cell}
    {argument : String} (hargument : arguments[index.toNat]? = some argument) :
    let m := atStart config arguments console clock
    ∃ pushed span, m.push index = .ok pushed ∧ m.spans[index.toNat]? = some span ∧
      m.space.fetchBytes (UInt64.ofNat span.address) (UInt64.ofNat span.length).toNat =
        .ok (Name.bytes argument) ∧
      ∀ host, pushed.dispatch host .arg =
        if 2 ≤ config.dataStack then
          some (.done () { m with
            data := ⟨[UInt64.ofNat span.length, UInt64.ofNat span.address], config.dataStack - 2⟩ })
        else some (.halted (.fault (.stackOverflow .data 1)) pushed) := by
  intro m
  have hpositive : 0 < config.dataStack := hvalid.dataStack.1
  obtain ⟨span, hspan, hle, hread⟩ := read_argumentSpans config.systemArea hargument
  have hinside : span.address + span.length < config.dataSpace :=
    Nat.lt_of_le_of_lt (Nat.le_trans hle (le_alignUp _)) hspace
  have hbytes : m.space.bytesAt span.address span.length = Name.bytes argument := hread .zero
  refine ⟨_, span, push_of_room index (Nat.ne_of_gt hpositive), hspan, ?_, fun host => ?_⟩
  · rw [DataSpace.fetchBytes_ofNat hinside hvalid.dataSpace.2, hbytes]
  · rw [dispatch_arg rfl hspan host]
    by_cases hpair : 2 ≤ config.dataStack
    · rw [if_pos hpair, if_pos (Nat.le_sub_of_add_le hpair)]
      rfl
    · have hsingle : config.dataStack = 1 := by omega
      rw [if_neg hpair, if_neg (by simp [m, atStart, Stack.empty, hsingle])]
      simp [Stack.overflow, Stack.capacity, Stack.depth, m, atStart, Stack.empty, hsingle]

/-- A session starts exactly when its configuration is valid, the dictionary has room for the
primitives and the cell boundary behind the arguments lies in data space. It starts with `here` at
that boundary, which is also the body of every primitive. The arguments lie one after the other
behind the system area and can be asked for, as long as the data stack can take the two cells of an
answer; all other bytes are zero. -/
theorem boot_layout (config : Config) (arguments : List String) (console : Console)
    (clock : Clock) :
    let last := 16 + config.inputBuffer + argumentsSize arguments
    ((∃ m, Machine.boot config arguments console clock = .ok m) ↔
      (1 ≤ config.dataSpace ∧ config.dataSpace ≤ 0x40000000) ∧
      (1 ≤ config.dataStack ∧ config.dataStack ≤ 0x100000) ∧
      (1 ≤ config.returnStack ∧ config.returnStack ≤ 0x100000) ∧
      (77 ≤ config.dictionary ∧ config.dictionary ≤ 0x100000) ∧ config.inputBuffer ≤ 0x40000000 ∧
      16 + config.inputBuffer < config.dataSpace ∧ alignUp last < config.dataSpace) ∧
    ∀ m, Machine.boot config arguments console clock = .ok m →
      m.space.here = alignUp last ∧
      (∀ p, ∃ d, m.resolve (UInt64.ofNat p.token) = .ok d ∧ d.action = .primitive p ∧
        d.body = alignUp last) ∧
      (∀ host, m.dispatch host .argCount =
        some (.done () { m with
          data := ⟨[UInt64.ofNat arguments.length], config.dataStack - 1⟩ })) ∧
      (∀ index argument, arguments[index.toNat]? = some argument →
        ∃ pushed span, m.push index = .ok pushed ∧ m.spans[index.toNat]? = some span ∧
        m.space.fetchBytes (UInt64.ofNat span.address) (UInt64.ofNat span.length).toNat =
          .ok (Name.bytes argument) ∧
        ∀ host, pushed.dispatch host .arg =
          if 2 ≤ config.dataStack then
            some (.done () { m with
              data := ⟨[UInt64.ofNat span.length, UInt64.ofNat span.address],
                config.dataStack - 2⟩ })
          else some (.halted (.fault (.stackOverflow .data 1)) pushed)) ∧
      Span.Consecutive (16 + config.inputBuffer) m.spans last ∧
      ∀ address, address < 16 + config.inputBuffer ∨ last ≤ address →
        m.space.memory.get address = 0 := by
  intro last
  constructor
  · constructor
    · rintro ⟨m, hboot⟩
      obtain ⟨⟨hvalid, hcount, hspace⟩, -⟩ := boot_eq_ok_iff.mp hboot
      exact ⟨hvalid.dataSpace, hvalid.dataStack, hvalid.returnStack, ⟨hcount, hvalid.dictionary.2⟩,
        hvalid.inputBuffer, hvalid.systemArea, hspace⟩
    · rintro ⟨hdataSpace, hdata, hreturns, ⟨hcount, hdictionary⟩, hbuffer, hsystem, hspace⟩
      have hvalid : config.Valid :=
        ⟨hdataSpace, hdata, hreturns, ⟨by omega, hdictionary⟩, hbuffer, hsystem⟩
      exact ⟨_, boot_eq_ok_iff.mpr ⟨⟨hvalid, hcount, hspace⟩, rfl⟩⟩
  · intro m hboot
    obtain ⟨⟨hvalid, -, hspace⟩, rfl⟩ := boot_eq_ok_iff.mp hboot
    exact ⟨rfl, fun p => ⟨_, resolve_atStart _ _ _ _ p, rfl, rfl⟩, argCount_atStart hvalid,
      fun index argument hargument => arg_atStart hvalid hspace hargument,
      argumentSpans_consecutive _ _, fun address => get_atStart⟩

/-- A session for three arguments, one of them empty, starts in 25 bytes of data space and not in
24. The last argument takes two bytes. -/
theorem boot_layout_tight :
    ∃ (m pushed n : Machine) (span : Span),
      Machine.boot { dataSpace := 25, dictionary := 77, inputBuffer := 3 } ["a", "", "ü"]
        ⟨{ pending := [] }, {}, []⟩ {} =
        .ok m ∧
      m.space.here = 24 ∧ Span.Consecutive 19 m.spans 22 ∧ m.push 2 = .ok pushed ∧
      pushed.dispatch (HostCode.run 0) .arg = some (.done () n) ∧
      n.data.cells = [UInt64.ofNat span.length, UInt64.ofNat span.address] ∧
      m.space.fetchBytes (UInt64.ofNat span.address) (UInt64.ofNat span.length).toNat =
        .ok [0xC3, 0xBC] ∧
      ¬ ∃ m, Machine.boot { dataSpace := 24, dictionary := 77, inputBuffer := 3 } ["a", "", "ü"]
        ⟨{ pending := [] }, {}, []⟩
        {} = .ok m := by
  obtain ⟨hstarts, hlayout⟩ := boot_layout { dataSpace := 25, dictionary := 77, inputBuffer := 3 }
    ["a", "", "ü"]
    ⟨{ pending := [] }, {}, []⟩ {}
  obtain ⟨hrefused, -⟩ := boot_layout { dataSpace := 24, dictionary := 77, inputBuffer := 3 }
    ["a", "", "ü"]
    ⟨{ pending := [] }, {}, []⟩ {}
  obtain ⟨m, hboot⟩ := hstarts.mpr (by decide +kernel)
  obtain ⟨hhere, -, -, harg, hspans, -⟩ := hlayout m hboot
  obtain ⟨pushed, span, hpush, -, hbytes, hdispatch⟩ := harg 2 "ü" rfl
  refine ⟨m, pushed, _, span, hboot, hhere.trans (by decide +kernel), hspans, hpush,
    (hdispatch _).trans (if_pos (by decide)), rfl, ?_, ?_⟩
  · rw [hbytes]
    decide +kernel
  · rw [hrefused]
    decide +kernel

/-- On a data stack of a single cell the index of an argument finds no room for the answer. -/
theorem arg_of_single_cell :
    ∃ m pushed n, Machine.boot { dataStack := 1 } ["a"] ⟨{ pending := [] }, {}, []⟩ {} = .ok m ∧
      m.push 0 = .ok pushed ∧
      ∀ host, pushed.dispatch host .arg = some (.halted (.fault (.stackOverflow .data 1)) n) := by
  have hsession :
      ((Machine.boot { dataStack := 1 } ["a"] ⟨{ pending := [] }, {}, []⟩ {}).toOption.any fun m =>
      (m.push 0).toOption.any fun pushed =>
        (pushed.dispatch (HostCode.run 0) .arg).endsWith (some (.fault (.stackOverflow .data 1)))
          fun _ => true) =
      true := by decide +kernel
  obtain ⟨m, hboot, hsession⟩ := exists_ok_of_any hsession
  obtain ⟨pushed, hpush, hsession⟩ := exists_ok_of_any hsession
  obtain ⟨n, hhalted, -⟩ := Run.exists_halted hsession
  exact ⟨m, pushed, n, hboot, hpush, fun host => hhalted⟩

end Machine

end ThreadedForth
