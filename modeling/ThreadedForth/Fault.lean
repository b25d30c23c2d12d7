import ThreadedForth.Cell

/-!
# Faults and halts

Each fault names one cause for which the machine refuses an operation, with the numbers that explain
it. A halt is either a fault or the request to leave the session. The wording of every fault is
fixed in one place, `Fault.message`.
-/

namespace ThreadedForth

/-- The two stacks of the machine. -/
inductive StackKind where
  | data
  | returns
  deriving DecidableEq, Repr

/-- The name of a stack in messages. -/
def StackKind.label : StackKind → String
  | .data => "data stack"
  | .returns => "return stack"

/-- The causes for which an operation is refused. -/
inductive Fault where
  | stackUnderflow (stack : StackKind) (needed depth : Nat)
  | stackOverflow (stack : StackKind) (capacity : Nat)
  | dataSpaceOverflow (requested available : Nat)
  | invalidHere (here size : Nat)
  | unalignedAccess (address : Cell)
  | addressOutOfBounds (address : Cell) (length : Nat)
  | divisionByZero
  | unknownIndex (index count : Nat)
  | noInstructions
  | invalidToken (token : Cell)
  | dictionaryFull (capacity : Nat)
  | nameTooLong (length : Nat)
  | io (message : String)
  deriving DecidableEq, Repr

/-- An address as it appears in messages: hexadecimal without padding. -/
def Cell.hexText (x : Cell) : String :=
  "0x" ++ String.ofList (Nat.toDigits 16 x.toNat)

/-- The text that explains a fault. -/
def Fault.message : Fault → String
  | .stackUnderflow stack needed depth =>
      stack.label ++ " underflow: need " ++ toString needed ++ ", have " ++ toString depth
  | .stackOverflow stack capacity =>
      stack.label ++ " overflow (capacity " ++ toString capacity ++ ")"
  | .dataSpaceOverflow requested available =>
      "data space overflow: requested " ++ toString requested ++ " bytes, " ++ toString available ++
      " available"
  | .invalidHere here size =>
      "invalid HERE " ++ toString here ++ " (data space is " ++ toString size ++ " bytes)"
  | .unalignedAccess address => "unaligned cell access at address " ++ address.hexText
  | .addressOutOfBounds address length =>
      "address " ++ address.hexText ++ " (+" ++ toString length ++ ") is outside data space"
  | .divisionByZero => "division by zero"
  | .unknownIndex index count =>
      "index " ++ toString index ++ " out of range (count " ++ toString count ++ ")"
  | .noInstructions => "no instructions to process"
  | .invalidToken token => "invalid execution token " ++ toString token.toNat
  | .dictionaryFull capacity => "dictionary full (capacity " ++ toString capacity ++ ")"
  | .nameTooLong length => "name of " ++ toString length ++ " bytes exceeds 255"
  | .io message => "i/o error: " ++ message

/-- The reasons for which execution stops before its end. -/
inductive Halt where
  | bye
  | fault (cause : Fault)
  deriving DecidableEq, Repr

/-- The text that explains a halt. -/
def Halt.message : Halt → String
  | .bye => "bye"
  | .fault cause => cause.message

end ThreadedForth
