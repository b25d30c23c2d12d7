import ThreadedForth.Word.Effect

/-!
# Contracts of operations that may be refused

An operation meets a contract if whatever it gives is acceptable and every fault with which it is
refused is one that the contract tolerates. Contracts compose along sequencing, so the contract of a
word follows from those of the steps it takes. The contracts of the stack words say that capacity is
kept and that only the operands are ever at fault.
-/

namespace ThreadedForth

variable {α β : Type}

/-- An operation gives only acceptable values and is refused only with tolerated faults. -/
def Meets (accept : α → Prop) (tolerate : Fault → Prop) : Except Fault α → Prop
  | .ok value => accept value
  | .error fault => tolerate fault

namespace Meets

variable {accept : α → Prop} {goal : β → Prop} {tolerate : Fault → Prop}

/-- Sequencing composes contracts. -/
theorem bind {x : Except Fault α} {f : α → Except Fault β} (hx : Meets accept tolerate x)
    (hf : ∀ value, accept value → Meets goal tolerate (f value)) :
    Meets goal tolerate (x >>= f) := by
  cases x with
  | ok value => exact hf value hx
  | error fault => exact hx

/-- A contract may be weakened on both sides. -/
theorem weaken {accept' : α → Prop} {tolerate' : Fault → Prop} {x : Except Fault α}
    (hx : Meets accept tolerate x) (haccept : ∀ value, accept value → accept' value)
    (htolerate : ∀ fault, tolerate fault → tolerate' fault) : Meets accept' tolerate' x := by
  cases x with
  | ok value => exact haccept value hx
  | error fault => exact htolerate fault hx

end Meets

/-- A sequence succeeds exactly when both of its parts do. -/
theorem bind_eq_ok {x : Except Fault α} {f : α → Except Fault β} {value : β} :
    (x >>= f) = .ok value ↔ ∃ first, x = .ok first ∧ f first = .ok value := by
  cases x with
  | ok first => exact ⟨fun h => ⟨first, rfl, h⟩, fun ⟨_, hfirst, h⟩ => by cases hfirst; exact h⟩
  | error fault => exact ⟨fun h => (nomatch h), fun ⟨_, hfirst, _⟩ => (nomatch hfirst)⟩

/-- An operation whose value passes a check has a value. -/
theorem exists_ok_of_any {ε : Type} {x : Except ε α} {check : α → Bool}
    (h : x.toOption.any check = true) : ∃ value, x = .ok value ∧ check value = true := by
  cases x with
  | ok value => exact ⟨value, rfl, h⟩
  | error error => cases h

/-- A fault that blames the operands on a stack. -/
def Fault.blamesStack : Fault → Bool
  | .stackUnderflow _ _ _ | .stackOverflow _ _ | .divisionByZero => true
  | _ => false

/-- A fault that says that data space has been handed out to its end. -/
def Fault.isInvalidHere : Fault → Bool
  | .invalidHere _ _ => true
  | _ => false

/-- A fault that concerns the operands or the console: it says neither that data space has been
handed out to its end nor that there is no cursor. -/
def Fault.isOrdinary : Fault → Bool
  | .invalidHere _ _ | .noInstructions => false
  | _ => true

/-- A fault of a stack operand is ordinary. -/
theorem Fault.isOrdinary_of_blamesStack {fault : Fault} (h : fault.blamesStack = true) :
    fault.isOrdinary = true := by
  cases fault <;> simp_all [blamesStack, isOrdinary]

/-- An ordinary fault does not say that data space has been handed out to its end. -/
theorem Fault.isInvalidHere_of_isOrdinary {fault : Fault} (h : fault.isOrdinary = true) :
    fault.isInvalidHere = false := by
  cases fault <;> simp_all [isOrdinary, isInvalidHere]

namespace Stack

variable {kind : StackKind}

/-- A stack is determined by its cells and its room. -/
theorem eq_of_cells {s t : Stack kind} (hcells : s.cells = t.cells) (hroom : s.room = t.room) :
    s = t := by
  obtain ⟨cells, room⟩ := s
  cases hcells
  cases hroom
  rfl

/-- A cell is pushed exactly when there is room, and then lies on top of the others. -/
theorem push_eq_ok {s t : Stack kind} {x : Cell} :
    s.push x = .ok t ↔ t.cells = x :: s.cells ∧ t.room + 1 = s.room := by
  obtain ⟨cells, room⟩ := s
  obtain ⟨cells', room'⟩ := t
  cases room with
  | zero => exact ⟨fun h => (nomatch h), fun h => (nomatch h.2)⟩
  | succ room =>
      refine ⟨fun h => by cases h; exact ⟨rfl, rfl⟩, fun ⟨hcells, hroom⟩ => ?_⟩
      dsimp only at hcells hroom
      cases hcells
      cases hroom
      rfl

/-- A cell is taken exactly when it lies on top of the others. -/
theorem pop_eq_ok {s t : Stack kind} {x : Cell} :
    s.pop = .ok (x, t) ↔ s.cells = x :: t.cells ∧ s.room + 1 = t.room := by
  obtain ⟨cells, room⟩ := s
  obtain ⟨cells', room'⟩ := t
  cases cells with
  | nil => exact ⟨fun h => (nomatch h), fun h => (nomatch h.1)⟩
  | cons y rest =>
      refine ⟨fun h => by cases h; exact ⟨rfl, rfl⟩, fun ⟨hcells, hroom⟩ => ?_⟩
      dsimp only at hcells hroom
      cases hcells
      cases hroom
      rfl

/-- The contract of every stack word: the capacity stays what it was, and only the operands are at
fault. -/
def Conserves (s : Stack kind) (change : Except Fault (Stack kind)) : Prop :=
  Meets (fun t => t.capacity = s.capacity) (fun fault => fault.blamesStack = true) change

/-- Putting a cell on top keeps the capacity. -/
theorem push_conserves {s t : Stack kind} (x : Cell) (h : t.capacity = s.capacity) :
    s.Conserves (t.push x) := by
  cases hpush : t.push x with
  | ok u => exact (capacity_push hpush).trans h
  | error fault =>
      obtain ⟨cells, room⟩ := t
      cases room with
      | zero => cases hpush; rfl
      | succ room => cases hpush

/-- Putting several cells on top keeps the capacity. -/
theorem pushAll_conserves {s t : Stack kind} (xs : List Cell) (h : t.capacity = s.capacity) :
    s.Conserves (t.pushAll xs) := by
  induction xs generalizing t with
  | nil => exact h
  | cons x rest ih => exact (push_conserves x h).bind fun u hu => ih hu

/-- Taking the top cell keeps the capacity. -/
theorem pop_conserves (s : Stack kind) :
    Meets (fun popped => popped.2.capacity = s.capacity)
      (fun fault => fault.blamesStack = true) s.pop := by
  obtain ⟨cells, room⟩ := s
  cases cells with
  | nil => rfl
  | cons x rest =>
      simp only [pop, Meets, capacity, depth, List.length_cons]
      omega

/-- Taking the two top cells keeps the capacity. -/
theorem popPair_conserves (s : Stack kind) :
    Meets (fun popped => popped.2.2.capacity = s.capacity)
      (fun fault => fault.blamesStack = true) s.popPair := by
  obtain ⟨_ | ⟨y, _ | ⟨x, rest⟩⟩, room⟩ := s
  · rfl
  · rfl
  · simp only [popPair, Meets, capacity, depth, List.length_cons]
    omega

/-- Taking the three top cells keeps the capacity. -/
theorem popTriple_conserves (s : Stack kind) :
    Meets (fun popped => popped.2.2.2.capacity = s.capacity) (fun fault => fault.blamesStack = true)
      s.popTriple := by
  obtain ⟨_ | ⟨z, _ | ⟨y, _ | ⟨x, rest⟩⟩⟩, room⟩ := s
  · rfl
  · rfl
  · rfl
  · simp only [popTriple, Meets, capacity, depth, List.length_cons]
    omega

/-- A word that takes one cell keeps the capacity if it does so with what is left. -/
theorem conserves_of_pop {s : Stack kind} {next : Cell × Stack kind → Except Fault (Stack kind)}
    (h : ∀ x rest, rest.capacity = s.capacity → s.Conserves (next (x, rest))) :
    s.Conserves (s.pop >>= next) :=
  s.pop_conserves.bind fun popped hpopped => h popped.1 popped.2 hpopped

/-- A word that takes two cells keeps the capacity if it does so with what is left. -/
theorem conserves_of_popPair {s : Stack kind}
    {next : Cell × Cell × Stack kind → Except Fault (Stack kind)}
    (h : ∀ x y rest, rest.capacity = s.capacity → s.Conserves (next (x, y, rest))) :
    s.Conserves (s.popPair >>= next) :=
  s.popPair_conserves.bind fun popped hpopped => h popped.1 popped.2.1 popped.2.2 hpopped

/-- The indexed words keep the capacity: what the index selects is copied or moved inside the
stack. -/
theorem pick_conserves (s : Stack kind) : s.Conserves s.pick := by
  refine conserves_of_pop fun index rest hrest => ?_
  dsimp only
  split
  · exact push_conserves _ hrest
  · rfl

/-- Moving a cell to the top neither adds a cell nor removes one. -/
theorem roll_conserves (s : Stack kind) : s.Conserves s.roll := by
  refine conserves_of_pop fun index rest hrest => ?_
  dsimp only
  split
  · next x hx =>
      obtain ⟨hindex, -⟩ := List.getElem?_eq_some_iff.mp hx
      change (x :: rest.cells.eraseIdx index.toNat).length + rest.room = s.capacity
      rw [List.length_cons, List.length_eraseIdx_of_lt hindex]
      simp only [capacity, depth] at hrest ⊢
      omega
  · rfl

/-- Copying the top cell unless it is zero keeps the capacity. -/
theorem dupNonzero_conserves (s : Stack kind) : s.Conserves s.dupNonzero := by
  refine conserves_of_pop fun x rest hrest => ?_
  dsimp only
  split
  · exact rfl
  · exact pushAll_conserves _ hrest

/-- Dividing keeps the capacity, and a zero divisor is an operand at fault. -/
theorem divide_conserves (results : Cell → Cell → List Cell) (s : Stack kind) :
    s.Conserves (s.divide results) := by
  refine conserves_of_popPair fun x y rest hrest => ?_
  dsimp only
  split
  · rfl
  · exact pushAll_conserves _ hrest

/-- Replacing the top cell keeps the capacity. -/
theorem unary_conserves (f : Cell → Cell) (s : Stack kind) : s.Conserves (s.unary f) :=
  conserves_of_pop fun _ _ hrest => push_conserves _ hrest

/-- Replacing the two top cells by one keeps the capacity. -/
theorem binary_conserves (f : Cell → Cell → Cell) (s : Stack kind) : s.Conserves (s.binary f) :=
  conserves_of_popPair fun _ _ _ hrest => push_conserves _ hrest

end Stack

end ThreadedForth
