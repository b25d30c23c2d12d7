import ThreadedForth.Proofs.Simulation

/-!
# Stacks with more below and more room above

A stack is padded if it lies on top of further cells and has a larger capacity. The stack words look
neither at what is below their operands nor at the capacity, so on a padded stack they do the same
to the cells on top. There are two exceptions, which are excused: cells below may serve as operands
that would otherwise be missing, and they may take the room for a result; additional capacity may
give it.
-/

namespace ThreadedForth

/-- The excuses that cells below a stack and additional capacity call for. -/
structure Excuse.Covers (e : Excuse) (kind : StackKind) (below : List Cell) (extra : Nat) :
    Prop where
  missing : below ≠ [] → ∀ fault, e.first fault
  full : extra ≠ 0 → ∀ capacity, e.first (.stackOverflow kind capacity)
  crowded : below ≠ [] → ∀ capacity, e.second (.stackOverflow kind capacity)

namespace Stack

variable {α : Type} {kind : StackKind} {below : List Cell} {extra : Nat} {s t : Stack kind}
  {e : Excuse}

/-- The second stack has the cells of the first on top of given ones, and additional capacity. -/
structure Padded (below : List Cell) (extra : Nat) (s t : Stack kind) : Prop where
  cells : t.cells = s.cells ++ below
  room : t.room + below.length = s.room + extra

namespace Padded

/-- Nothing below makes no difference to the depth. -/
theorem depth_eq (h : s.Padded [] extra t) : t.depth = s.depth := by
  rw [depth, h.cells, List.append_nil, depth]

/-- A padded stack has the additional capacity. -/
theorem capacity_eq (h : s.Padded below extra t) : t.capacity = s.capacity + extra := by
  have hroom := h.room
  rw [capacity, capacity, depth, depth, h.cells, List.length_append]
  omega

/-- A word that lacks operands is excused if there are cells below, and otherwise lacks them on both
stacks. -/
theorem missing (cover : e.Covers kind below extra) (h : s.Padded below extra t) (needed : Nat)
    {rel : α → α → Prop} {y : Except Fault α} (hy : below = [] → y = .error (t.underflow needed)) :
    Coupled e rel (.error (s.underflow needed)) y := by
  cases below with
  | cons x rest => exact .first _ (cover.missing (List.cons_ne_nil x rest) _)
  | nil =>
      rw [hy rfl, underflow, underflow, h.depth_eq]
      exact .error _

/-- A result that finds no room on a stack is excused by additional capacity, and otherwise finds
none on both. -/
theorem full (cover : e.Covers kind below extra) (h : s.Padded below extra t) (hroom : s.room = 0)
    {rel : α → α → Prop} {y : Except Fault α} (hy : t.room = 0 → y = .error t.overflow) :
    Coupled e rel (.error s.overflow) y := by
  have hrooms := h.room
  by_cases hextra : extra = 0
  · rw [hy (by omega), overflow, overflow, h.capacity_eq, hextra]
    exact .error _
  · exact .first _ (cover.full hextra _)

/-- A result that finds room on a stack alone is excused by the cells below. -/
theorem crowded (cover : e.Covers kind below extra) (h : s.Padded below extra t)
    (hroom : s.room ≠ 0) (hfull : t.room = 0) {rel : α → α → Prop} (x : Except Fault α) :
    Coupled e rel x (.error t.overflow) := by
  have hrooms := h.room
  refine .second _ (cover.crowded (fun hbelow => ?_) _)
  rw [hbelow, List.length_nil] at hrooms
  omega

/-- Putting a cell on top is coupled on a padded stack. -/
theorem push (cover : e.Covers kind below extra) (h : s.Padded below extra t) (x : Cell) :
    Coupled e (Padded below extra) (s.push x) (t.push x) := by
  obtain ⟨cells, room⟩ := s
  obtain ⟨cells', room'⟩ := t
  have hroom : room' + below.length = room + extra := h.room
  cases room with
  | zero =>
      refine full cover h rfl fun hfull => ?_
      cases hfull
      rfl
  | succ room =>
      cases room' with
      | zero => exact crowded cover h (Nat.succ_ne_zero room) rfl _
      | succ room' => exact .ok ⟨congrArg (x :: ·) h.cells, by dsimp only; omega⟩

/-- Putting several cells on top is coupled on a padded stack. -/
theorem pushAll (cover : e.Covers kind below extra) (h : s.Padded below extra t) (xs : List Cell) :
    Coupled e (Padded below extra) (s.pushAll xs) (t.pushAll xs) := by
  induction xs generalizing s t with
  | nil => exact .ok h
  | cons x rest ih => exact (h.push cover x).bind fun u v huv => ih huv

/-- Asking for room is coupled on a padded stack. -/
theorem requireRoom (cover : e.Covers kind below extra) (h : s.Padded below extra t) :
    Coupled e Eq (s.requireRoom 1) (t.requireRoom 1) := by
  unfold Stack.requireRoom
  by_cases hs : s.room < 1
  · rw [if_pos hs]
    exact full cover h (Nat.lt_one_iff.mp hs) fun ht => if_pos (Nat.lt_one_iff.mpr ht)
  · rw [if_neg hs]
    by_cases ht : t.room < 1
    · rw [if_pos ht]
      exact crowded cover h (fun hroom => hs (Nat.lt_one_iff.mpr hroom)) (Nat.lt_one_iff.mp ht) _
    · rw [if_neg ht]
      exact .ok rfl

/-- Taking the top cell is coupled on a padded stack if going on with it is. -/
theorem pop {rel : α → α → Prop} {f g : Cell × Stack kind → Except Fault α}
    (cover : e.Covers kind below extra) (h : s.Padded below extra t)
    (hfg : ∀ x u v, u.Padded below extra v → Coupled e rel (f (x, u)) (g (x, v))) :
    Coupled e rel (s.pop >>= f) (t.pop >>= g) := by
  obtain ⟨cells, room⟩ := s
  obtain ⟨cells', room'⟩ := t
  obtain rfl : cells' = cells ++ below := h.cells
  have hroom : room' + below.length = room + extra := h.room
  cases cells with
  | cons x rest => exact hfg x _ _ ⟨rfl, by dsimp only; omega⟩
  | nil =>
      refine missing cover h 1 fun hbelow => ?_
      subst hbelow
      rfl

/-- Taking the two top cells is coupled on a padded stack if going on with them is. -/
theorem popPair {rel : α → α → Prop} {f g : Cell × Cell × Stack kind → Except Fault α}
    (cover : e.Covers kind below extra) (h : s.Padded below extra t)
    (hfg : ∀ x y u v, u.Padded below extra v → Coupled e rel (f (x, y, u)) (g (x, y, v))) :
    Coupled e rel (s.popPair >>= f) (t.popPair >>= g) := by
  obtain ⟨cells, room⟩ := s
  obtain ⟨cells', room'⟩ := t
  obtain rfl : cells' = cells ++ below := h.cells
  have hroom : room' + below.length = room + extra := h.room
  obtain _ | ⟨y, _ | ⟨x, rest⟩⟩ := cells
  case cons.cons => exact hfg x y _ _ ⟨rfl, by dsimp only; omega⟩
  all_goals
    refine missing cover h 2 fun hbelow => ?_
    subst hbelow
    rfl

/-- Taking the three top cells is coupled on a padded stack if going on with them is. -/
theorem popTriple {rel : α → α → Prop} {f g : Cell × Cell × Cell × Stack kind → Except Fault α}
    (cover : e.Covers kind below extra) (h : s.Padded below extra t)
    (hfg : ∀ x y z u v, u.Padded below extra v → Coupled e rel (f (x, y, z, u)) (g (x, y, z, v))) :
    Coupled e rel (s.popTriple >>= f) (t.popTriple >>= g) := by
  obtain ⟨cells, room⟩ := s
  obtain ⟨cells', room'⟩ := t
  obtain rfl : cells' = cells ++ below := h.cells
  have hroom : room' + below.length = room + extra := h.room
  obtain _ | ⟨z, _ | ⟨y, _ | ⟨x, rest⟩⟩⟩ := cells
  case cons.cons.cons => exact hfg x y z _ _ ⟨rfl, by dsimp only; omega⟩
  all_goals
    refine missing cover h 3 fun hbelow => ?_
    subst hbelow
    rfl

end Padded

/-- A stack word that takes no notice of the padding. -/
def Ignores (e : Excuse) (below : List Cell) (extra : Nat)
    (word : Stack kind → Except Fault (Stack kind)) : Prop :=
  ∀ ⦃s t : Stack kind⦄, s.Padded below extra t → Coupled e (Padded below extra) (word s) (word t)

section Words

variable (cover : e.Covers kind below extra)

include cover

/-- The depth is the same if there is nothing below. -/
theorem pushDepth_ignores (hbelow : below = []) : Ignores e below extra (@pushDepth kind) := by
  intro s t h
  subst hbelow
  unfold pushDepth
  rw [h.depth_eq]
  exact h.push cover _

/-- Copying the cell at an index takes no notice of the padding, as the index counts from the
top. -/
theorem pick_ignores : Ignores e below extra (@pick kind) := by
  intro s t h
  refine h.pop cover fun index u v huv => ?_
  dsimp only
  cases hx : u.cells[index.toNat]? with
  | some x =>
      have hlt := (List.getElem?_eq_some_iff.mp hx).1
      rw [huv.cells, List.getElem?_append_left hlt, hx]
      exact huv.push cover x
  | none =>
      refine h.missing cover _ fun hbelow => ?_
      rw [huv.cells, hbelow, List.append_nil, hx]

/-- Moving the cell at an index takes no notice of the padding, as the index counts from the top. -/
theorem roll_ignores : Ignores e below extra (@roll kind) := by
  intro s t h
  refine h.pop cover fun index u v huv => ?_
  dsimp only
  cases hx : u.cells[index.toNat]? with
  | some x =>
      have hlt := (List.getElem?_eq_some_iff.mp hx).1
      rw [huv.cells, List.getElem?_append_left hlt, hx]
      refine .ok ⟨?_, huv.room⟩
      rw [List.eraseIdx_append_of_lt_length hlt, List.cons_append]
  | none =>
      refine h.missing cover _ fun hbelow => ?_
      rw [huv.cells, hbelow, List.append_nil, hx]

/-- Copying the top cell unless it is zero takes no notice of the padding. -/
theorem dupNonzero_ignores : Ignores e below extra (@dupNonzero kind) := by
  intro s t h
  refine h.pop cover fun x u v huv => ?_
  dsimp only
  split
  · exact .ok h
  · exact huv.pushAll cover _

/-- Dividing takes no notice of the padding, as a zero divisor is refused on both stacks. -/
theorem divide_ignores (results : Cell → Cell → List Cell) :
    Ignores e below extra (@divide kind results) := by
  intro s t h
  refine h.popPair cover fun x y u v huv => ?_
  dsimp only
  split
  · exact .error _
  · exact huv.pushAll cover _

end Words

end Stack

end ThreadedForth
