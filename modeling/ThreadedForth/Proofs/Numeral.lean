import ThreadedForth.CommandLine.Report
import ThreadedForth.Proofs.Branching
import ThreadedForth.Proofs.Division

/-!
# Which tokens are numerals

A token is taken for a number exactly when it is written as one, with an optional sign and one or
more decimal digits, and its value fits a cell as a two's-complement or as an unsigned number. The
digits are read one at a time under a bound. As the number only moves away from zero on the way, it
leaves the range on the way exactly when its value is out of range, so neither leading zeros nor the
place where a digit overflows make a difference. All other tokens are left to the dictionary.
-/

namespace ThreadedForth.Numeral

/-- The ways in which a sign is written. -/
inductive Sign.Written : Sign → List Char → Prop where
  | none : Written .plus []
  | plus : Written .plus ['+']
  | minus : Written .minus ['-']

/-- One or more decimal digits have a given value with a sign. -/
def Valued (sign : Sign) (digits : List Char) (z : Int) : Prop :=
  digits ≠ [] ∧ (∀ c ∈ digits, c.isDigit = true) ∧ z = sign.apply (Nat.ofDigitChars 10 digits 0)

/-- A text is a numeral of a given value: an optional sign in front of one or more decimal
digits. -/
def Denotes (text : List Char) (z : Int) : Prop :=
  ∃ sign mark digits, Sign.Written sign mark ∧ text = mark ++ digits ∧ Valued sign digits z

variable {range : Range} {sign : Sign} {text digits : List Char} {z w : Int} {c : Char}

/-- Digits start with a digit. -/
theorem Valued.isDigit_head (h : Valued sign (c :: digits) z) : c.isDigit = true :=
  h.2.1 c List.mem_cons_self

/-- A numeral that starts with a sign has the value of the digits after it with that sign. -/
theorem denotes_signed_iff (hmark : Sign.Written sign [c]) :
    Denotes (c :: digits) z ↔ Valued sign digits z := by
  constructor
  · rintro ⟨_, _, rest, hwritten, htext, hvalued⟩
    cases hwritten with
    | none =>
        obtain rfl : c :: digits = rest := htext
        have hdigit := hvalued.isDigit_head
        cases hmark <;> contradiction
    | plus | minus =>
        cases htext
        cases hmark
        exact hvalued
  · exact fun hvalued => ⟨sign, [c], digits, hmark, rfl, hvalued⟩

/-- A numeral without a sign has the value of its digits. -/
theorem denotes_unsigned_iff (hplus : ∀ digits, text ≠ '+' :: digits)
    (hminus : ∀ digits, text ≠ '-' :: digits) : Denotes text z ↔ Valued .plus text z := by
  constructor
  · rintro ⟨_, _, digits, hwritten, htext, hvalued⟩
    cases hwritten with
    | none =>
        obtain rfl : text = digits := htext
        exact hvalued
    | plus => exact absurd htext (hplus digits)
    | minus => exact absurd htext (hminus digits)
  · exact fun hvalued => ⟨.plus, [], text, .none, rfl, hvalued⟩

/-- An integer is printed as a numeral of its value. -/
theorem denotes_toString (z : Int) : Denotes (toString z).toList z := by
  have hvalued : ∀ sign : Sign, ∀ n : Nat, Valued sign n.repr.toList (sign.apply n) := by
    intro sign n
    rw [Nat.repr_eq_ofList_toDigits, String.toList_ofList]
    refine ⟨Nat.toDigits_ne_nil, fun c hc => Nat.isDigit_of_mem_toDigits (by decide) (by decide) hc,
      ?_⟩
    rw [Nat.ofDigitChars_ten_toDigits]
  change Denotes z.repr.toList z
  rw [Int.repr_eq_if]
  split
  · next hz =>
      have hplus := hvalued .plus z.toNat
      rw [Sign.apply, Int.toNat_of_nonneg hz] at hplus
      exact ⟨.plus, [], _, .none, rfl, hplus⟩
  · next hz =>
      have hminus := hvalued .minus (-z).toNat
      rw [Sign.apply, Int.toNat_of_nonneg (by omega), Int.neg_neg] at hminus
      exact ⟨.minus, ['-'], _, .minus, String.toList_append, hminus⟩

/-- Digits never make a number smaller. -/
theorem le_ofDigitChars (digits : List Char) (n : Nat) : n ≤ Nat.ofDigitChars 10 digits n := by
  rw [Nat.ofDigitChars_eq_ofDigitChars_zero]
  exact Nat.le_trans (Nat.le_mul_of_pos_left n (Nat.pow_pos (by decide))) (Nat.le_add_right _ _)

/-- One more place for a digit keeps the sign. -/
theorem Sign.shift_apply (sign : Sign) (n : Nat) :
    10 * sign.apply n = sign.apply (10 * n : Nat) := by
  cases sign <;> simp only [Sign.apply] <;> omega

/-- Magnitudes of one sign add up. -/
theorem Sign.apply_add (sign : Sign) (n digit : Nat) :
    sign.apply n + sign.apply digit = sign.apply (n + digit : Nat) := by
  cases sign <;> simp only [Sign.apply] <;> omega

namespace Range

/-- A number belongs to a range. -/
def Contains (range : Range) (z : Int) : Prop := range.least ≤ z ∧ z ≤ range.greatest

/-- The check lets the numbers of the range pass. -/
theorem check_eq_some_iff : range.check z = some w ↔ range.Contains z ∧ w = z := by
  unfold check Contains
  split
  · next h => simp [h, eq_comm]
  · next h => simp [h]

/-- Between zero and a number of the range lie numbers of the range only. -/
theorem Contains.of_le {small large : Nat} (h : range.Contains (sign.apply large))
    (hle : small ≤ large) : range.Contains (sign.apply small) := by
  have hleast := range.least_le
  have hgreatest := range.le_greatest
  obtain ⟨hlow, hhigh⟩ := h
  cases sign <;> simp only [Sign.apply, Contains] at hlow hhigh ⊢ <;> omega

/-- A digit is appended to a number of the same sign if the sum is in the range. The shifted number
is so then, too. -/
theorem append?_eq_some_iff {n : Nat} :
    range.append? sign (sign.apply n) c = some w ↔
      c.isDigit = true ∧ w = sign.apply (10 * n + (c.toNat - '0'.toNat) : Nat) ∧
      range.Contains w := by
  unfold append?
  split
  · next hdigit =>
      rw [Sign.shift_apply]
      simp only [Option.bind_eq_bind, Option.bind_eq_some_iff, check_eq_some_iff]
      constructor
      · rintro ⟨_, ⟨-, rfl⟩, hcontains, rfl⟩
        rw [Sign.apply_add] at hcontains ⊢
        exact ⟨hdigit, rfl, hcontains⟩
      · rintro ⟨-, rfl, hcontains⟩
        refine ⟨_, ⟨hcontains.of_le (Nat.le_add_right _ _), rfl⟩, ?_⟩
        rw [Sign.apply_add]
        exact ⟨hcontains, rfl⟩
  · next hdigit => simp [hdigit]

/-- Digits that are appended one at a time to a number of the range pass all the checks on the way
exactly when the number that they lead to passes. -/
theorem foldlM_append?_eq_some_iff {n : Nat} (hn : range.Contains (sign.apply n)) :
    digits.foldlM (range.append? sign) (sign.apply n) = some w ↔
      (∀ c ∈ digits, c.isDigit = true) ∧ w = sign.apply (Nat.ofDigitChars 10 digits n) ∧
        range.Contains w := by
  induction digits generalizing n with
  | nil =>
      rw [List.foldlM_nil, Nat.ofDigitChars_nil]
      constructor
      · intro h
        cases h
        exact ⟨by simp, rfl, hn⟩
      · rintro ⟨-, rfl, -⟩
        rfl
  | cons c rest ih =>
      rw [List.foldlM_cons, Option.bind_eq_bind, Option.bind_eq_some_iff, Nat.ofDigitChars_cons,
        List.forall_mem_cons]
      constructor
      · rintro ⟨next, happend, hrest⟩
        obtain ⟨hdigit, rfl, hnext⟩ := append?_eq_some_iff.mp happend
        obtain ⟨hdigits, hvalue, hcontains⟩ := (ih hnext).mp hrest
        exact ⟨⟨hdigit, hdigits⟩, hvalue, hcontains⟩
      · rintro ⟨⟨hdigit, hdigits⟩, rfl, hcontains⟩
        have hnext := hcontains.of_le (le_ofDigitChars rest _)
        exact ⟨_, append?_eq_some_iff.mpr ⟨hdigit, rfl, hnext⟩,
          (ih hnext).mpr ⟨hdigits, rfl, hcontains⟩⟩

/-- Digits are read exactly when their value is in the range. -/
theorem digits?_eq_some_iff :
    range.digits? sign digits = some z ↔ Valued sign digits z ∧ range.Contains z := by
  have hzero : range.Contains (sign.apply (0 : Nat)) := by
    have hleast := range.least_le
    have hgreatest := range.le_greatest
    cases sign <;> exact ⟨hleast, hgreatest⟩
  unfold digits? Valued
  split
  · next hempty => simp [List.isEmpty_iff.mp hempty]
  · next hnonempty =>
      have hne : digits ≠ [] := fun h => hnonempty (List.isEmpty_iff.mpr h)
      rw [show (0 : Int) = sign.apply
        (0 : Nat) by cases sign <;> rfl, foldlM_append?_eq_some_iff hzero]
      simp only [hne, ne_eq, not_false_iff, true_and, and_assoc]

/-- A text is read exactly when it is a numeral whose value is in the range; where there are no
negative numbers, it must not have a minus sign either. -/
theorem read?_eq_some_iff :
    range.read? text = some z ↔
      Denotes text z ∧ range.Contains z ∧ (text.head? = some '-' → range.least < 0) := by
  unfold read?
  split
  · next digits => simp [digits?_eq_some_iff, denotes_signed_iff .plus]
  · next digits =>
      rw [denotes_signed_iff .minus]
      split
      · next hleast => simp [digits?_eq_some_iff, hleast]
      · next hleast => simp [hleast]
  · next hplus hminus =>
      have hhead : text.head? ≠ some '-' := by
        intro h
        obtain ⟨digits, rfl⟩ := List.head?_eq_some_iff.mp h
        exact hminus digits rfl
      simp [digits?_eq_some_iff, denotes_unsigned_iff hplus hminus, hhead]

end Range

/-- A numeral has one value. -/
theorem Denotes.unique (hz : Denotes text z) (hw : Denotes text w) : z = w := by
  -- Both values are what is read within a range that is large enough for them.
  let range : Range :=
    ⟨-(z.natAbs + w.natAbs : Nat) - 1, (z.natAbs + w.natAbs : Nat), by omega, by omega⟩
  have hread : ∀ v : Int, v.natAbs ≤ z.natAbs + w.natAbs → Denotes text v →
      range.read? text = some v := by
    intro v hv hdenotes
    refine Range.read?_eq_some_iff.mpr
      ⟨hdenotes, ⟨?_, ?_⟩, fun _ => ?_⟩ <;> simp only [range] <;> omega
  exact Option.some.inj ((hread z (by omega) hz).symm.trans (hread w (by omega) hw))

variable {token : String} {x : Cell}

/-- A cell holds a number exactly when the two agree modulo the size of a cell. -/
theorem eq_ofInt_iff : x = UInt64.ofInt z ↔ (x.toNat : Int) = z % 0x10000000000000000 := by
  have hint := Cell.toNat_ofInt z
  rw [← UInt64.toNat_inj]
  omega

/-- The cell of a two's-complement number is the cell of the integer. -/
theorem ofSigned_ofInt (z : Int) : Cell.ofSigned (Int64.ofInt z) = UInt64.ofInt z := by
  have hlt := UInt64.toNat_lt (Cell.ofSigned (Int64.ofInt z))
  have hvalue := Cell.toInt_signed (Cell.ofSigned (Int64.ofInt z))
  rw [Cell.signed_ofSigned, Int64.toInt_ofInt, Int.bmod_def,
    show Int64.size = 0x10000000000000000 from rfl] at hvalue
  refine eq_ofInt_iff.mpr ?_
  split at hvalue <;> split at hvalue <;> omega

/-- The two's-complement reading accepts the numerals of two's-complement numbers. -/
theorem readSigned?_eq_some_iff :
    readSigned? token = some x ↔
      ∃ z, Denotes token.toList z ∧ -0x8000000000000000 ≤ z ∧ z < 0x8000000000000000 ∧
        x = UInt64.ofInt z := by
  simp only [readSigned?, Option.map_eq_some_iff, Range.read?_eq_some_iff, Range.Contains,
    Range.signed]
  constructor
  · rintro ⟨z, ⟨hdenotes, ⟨hlow, hhigh⟩, -⟩, rfl⟩
    exact ⟨z, hdenotes, hlow, by omega, ofSigned_ofInt z⟩
  · rintro ⟨z, hdenotes, hlow, hhigh, rfl⟩
    exact ⟨z, ⟨hdenotes, ⟨hlow, by omega⟩, fun _ => by decide⟩, ofSigned_ofInt z⟩

/-- The unsigned reading accepts the numerals of unsigned numbers without a minus sign. -/
theorem readUnsigned?_eq_some_iff :
    readUnsigned? token = some x ↔
      ∃ z, Denotes token.toList z ∧ token.toList.head? ≠ some '-' ∧ 0 ≤ z ∧
        z < 0x10000000000000000 ∧ x = UInt64.ofInt z := by
  have hcell : ∀ z : Int, 0 ≤ z → UInt64.ofNat z.toNat = UInt64.ofInt z := by
    intro z hz
    rw [← Cell.ofInt_natCast, Int.toNat_of_nonneg hz]
  simp only [readUnsigned?, Option.map_eq_some_iff, Range.read?_eq_some_iff, Range.Contains,
    Range.unsigned]
  constructor
  · rintro ⟨z, ⟨hdenotes, ⟨hlow, hhigh⟩, hminus⟩, rfl⟩
    exact ⟨z, hdenotes, fun h => absurd (hminus h) (by decide), hlow, by omega, hcell z hlow⟩
  · rintro ⟨z, hdenotes, hminus, hlow, hhigh, rfl⟩
    exact ⟨z, ⟨hdenotes, ⟨hlow, by omega⟩, fun h => absurd h hminus⟩, hcell z hlow⟩

/-- A numeral with a minus sign is not positive. -/
theorem Denotes.nonpos_of_minus (h : Denotes text z) (hminus : text.head? = some '-') : z ≤ 0 := by
  obtain ⟨digits, rfl⟩ := List.head?_eq_some_iff.mp hminus
  obtain ⟨-, -, rfl⟩ := (denotes_signed_iff .minus).mp h
  rw [Sign.apply]
  omega

/-- The two readings in sequence accept the numerals of all numbers that fit a cell. Beyond the
two's-complement numbers the first one fails, and the second one takes over up to the largest
cell. -/
theorem read?_eq_some_iff :
    read? token = some x ↔
      ∃ z, Denotes token.toList z ∧ -0x8000000000000000 ≤ z ∧ z < 0x10000000000000000 ∧
        x = UInt64.ofInt z := by
  rw [read?, Option.or_eq_some_iff]
  constructor
  · rintro (hsigned | ⟨-, hunsigned⟩)
    · obtain ⟨z, hdenotes, hlow, hhigh, hx⟩ := readSigned?_eq_some_iff.mp hsigned
      exact ⟨z, hdenotes, hlow, by omega, hx⟩
    · obtain ⟨z, hdenotes, -, hlow, hhigh, hx⟩ := readUnsigned?_eq_some_iff.mp hunsigned
      exact ⟨z, hdenotes, by omega, hhigh, hx⟩
  · rintro ⟨z, hdenotes, hlow, hhigh, hx⟩
    by_cases hz : z < 0x8000000000000000
    · exact .inl (readSigned?_eq_some_iff.mpr ⟨z, hdenotes, hlow, hz, hx⟩)
    · have hnone : readSigned? token = none := by
        refine Option.eq_none_iff_forall_ne_some.mpr fun y hy => ?_
        obtain ⟨w, hw, -, hlt, -⟩ := readSigned?_eq_some_iff.mp hy
        exact hz (hdenotes.unique hw ▸ hlt)
      have hminus : token.toList.head? ≠ some '-' := by
        intro h
        have := hdenotes.nonpos_of_minus h
        omega
      exact .inr ⟨hnone, readUnsigned?_eq_some_iff.mpr ⟨z, hdenotes, hminus, by omega, hhigh, hx⟩⟩

/-- Every number that fits a cell is read back from its decimal digits. -/
theorem read?_toString (hlow : -0x8000000000000000 ≤ z) (hhigh : z < 0x10000000000000000) :
    read? (toString z) = some (UInt64.ofInt z) :=
  read?_eq_some_iff.mpr ⟨z, denotes_toString z, hlow, hhigh, rfl⟩

end ThreadedForth.Numeral

namespace ThreadedForth.CommandLine

open Numeral

/-- A token is read as a cell exactly when it consists of an optional sign and decimal digits whose
value lies between the least two's-complement number and the largest unsigned one, and the cell is
that value modulo the size of a cell. Every number of that range is read back from its decimal
digits, and so is every cell from either of its two values. Where both readings accept a token they
agree. A token without such a value is looked up in the dictionary in every session. -/
theorem interpretToken_numeral (token : String) :
    (∀ x, read? token = some x ↔
      ∃ z, Denotes token.toList z ∧ -0x8000000000000000 ≤ z ∧ z < 0x10000000000000000 ∧
        (x.toNat : Int) = z % 0x10000000000000000) ∧
    (∀ z : Int, -0x8000000000000000 ≤ z → z < 0x10000000000000000 →
      read? (toString z) = some (UInt64.ofInt z)) ∧
    (∀ x : Cell, read? (toString x.toNat) = some x ∧ read? (toString x.signed.toInt) = some x) ∧
    (∀ x y, readSigned? token = some x → readUnsigned? token = some y → x = y) ∧
    ((∀ z, Denotes token.toList z → ¬ (-0x8000000000000000 ≤ z ∧ z < 0x10000000000000000)) → ∀ m,
      (∀ found, m.find? token = some found → interpretToken m token = executeToken m found) ∧
      (m.find? token = none → interpretToken m token = some (some (.unknownWord token), m))) := by
  refine ⟨fun x => ?_, fun z hlow hhigh => read?_toString hlow hhigh, fun x => ⟨?_, ?_⟩, ?_, ?_⟩
  · simp only [read?_eq_some_iff, eq_ofInt_iff]
  · have hx := x.toNat_lt
    rw [show toString x.toNat = toString (x.toNat : Int) from rfl,
      read?_toString (by omega) (by omega)]
    exact congrArg some (eq_ofInt_iff.mpr (by omega)).symm
  · have hx := x.toNat_lt
    have hvalue := x.toInt_signed
    rw [read?_toString (by split at hvalue <;> omega) (by split at hvalue <;> omega)]
    exact congrArg some (eq_ofInt_iff.mpr (by split at hvalue <;> omega)).symm
  · intro x y hx hy
    obtain ⟨z, hz, -, -, rfl⟩ := readSigned?_eq_some_iff.mp hx
    obtain ⟨w, hw, -, -, -, rfl⟩ := readUnsigned?_eq_some_iff.mp hy
    rw [hz.unique hw]
  · intro hother m
    have hnone : read? token = none := by
      refine Option.eq_none_iff_forall_ne_some.mpr fun x hx => ?_
      obtain ⟨z, hdenotes, hlow, hhigh, -⟩ := read?_eq_some_iff.mp hx
      exact hother z hdenotes ⟨hlow, hhigh⟩
    constructor
    · intro found hfound
      rw [interpretToken, hnone, hfound]
    · intro hfind
      rw [interpretToken, hnone, hfind]

/-- The least and the largest number that fit a cell are read, with leading zeros and a sign, and
the first one too large is not. Tokens that are no numerals are left to the dictionary, which has
some of them. -/
theorem interpretToken_numeral_limits :
    ∃ m, Machine.Live {} [] m ∧
      read? "-9223372036854775808" = some 0x8000000000000000 ∧
      read? "+0018446744073709551615" = some 0xFFFFFFFFFFFFFFFF ∧
      readSigned? "+0018446744073709551615" = none ∧ read? "18446744073709551616" = none ∧
      read? (toString (-1 : Int)) = some 0xFFFFFFFFFFFFFFFF ∧
      (∃ x y, readSigned? "9223372036854775807" = some x ∧
        readUnsigned? "9223372036854775807" = some y ∧ x = y) ∧
      (∀ token ∈ ["+", "-", "2DUP"],
        ∃ found, m.find? token = some found ∧ interpretToken m token = executeToken m found) ∧
      (∀ token ∈ ["", "--1", "٣", "18446744073709551616"],
        interpretToken m token = some (some (.unknownWord token), m)) := by
  have hsession : Machine.afterItems {} [] (fun m =>
      ["+", "-", "2DUP"].all (fun token => (m.find? token).isSome) &&
        ["", "--1", "٣", "18446744073709551616"].all (fun token => (m.find? token).isNone)) =
        true := by decide +kernel
  obtain ⟨m, live, hchecks⟩ := Machine.live_of_afterItems hsession
  simp only [Bool.and_eq_true, List.all_eq_true, Option.isSome_iff_exists,
    Option.isNone_iff_eq_none] at hchecks
  obtain ⟨hwords, hunknown⟩ := hchecks
  have hother : ∀ token, read? token = none →
      ∀ z, Denotes token.toList z → ¬ (-0x8000000000000000 ≤ z ∧ z < 0x10000000000000000) := by
    intro token hnone z hdenotes hfits
    have hread := ((interpretToken_numeral token).1 (UInt64.ofInt z)).mpr
      ⟨z, hdenotes, hfits.1, hfits.2, Cell.toNat_ofInt z⟩
    rw [hnone] at hread
    cases hread
  refine ⟨m, live, by decide +kernel, by decide +kernel, by decide +kernel, by decide +kernel,
    (interpretToken_numeral "").2.1 (-1) (by decide) (by decide), ?_, fun token htoken => ?_,
    fun token htoken => ?_⟩
  · have hsigned : readSigned? "9223372036854775807" = some 0x7FFFFFFFFFFFFFFF := by decide +kernel
    have hunsigned : readUnsigned? "9223372036854775807" = some 0x7FFFFFFFFFFFFFFF := by
      decide +kernel
    exact ⟨_, _, hsigned, hunsigned, (interpretToken_numeral _).2.2.2.1 _ _ hsigned hunsigned⟩
  · have hnone : ∀ token ∈ ["+", "-", "2DUP"], read? token = none := by decide +kernel
    obtain ⟨found, hfound⟩ := hwords token htoken
    exact ⟨found, hfound, ((interpretToken_numeral token).2.2.2.2
      (hother token (hnone token htoken)) m).1 found hfound⟩
  · have hnone : ∀ token ∈ ["", "--1", "٣", "18446744073709551616"], read? token = none := by
      decide +kernel
    exact ((interpretToken_numeral token).2.2.2.2 (hother token (hnone token htoken)) m).2
      (hunknown token htoken)

end ThreadedForth.CommandLine
