import ThreadedForth.Name

/-!
# Primitive words

The machine has 77 built-in words. Their order is part of the machine's interface: a primitive's
position in the table is its execution token in every session. Each constructor carries the word's
pronounced name.
-/

namespace ThreadedForth

/-- The built-in words, in the order of their execution tokens. -/
inductive Primitive where
  | depth
  | drop
  | dup
  | over
  | swap
  | rot
  | pick
  | roll
  | questionDup
  | nip
  | tuck
  | twoDup
  | twoDrop
  | toR
  | rFrom
  | rFetch
  | store
  | fetch
  | cStore
  | cFetch
  | here
  | allot
  | align
  | aligned
  | cellPlus
  | cells
  | unused
  | comma
  | cComma
  | plus
  | minus
  | star
  | slash
  | slashMod
  | mod
  | negate
  | onePlus
  | oneMinus
  | and
  | or
  | xor
  | invert
  | lShift
  | rShift
  | equals
  | less
  | greater
  | uLess
  | notEquals
  | zeroEquals
  | zeroLess
  | exit
  | literal
  | branch
  | zeroBranch
  | execute
  | find
  | words
  | latest
  | immediate
  | hidden
  | toBody
  | state
  | leftBracket
  | rightBracket
  | emit
  | type
  | cr
  | toIn
  | source
  | refill
  | argCount
  | arg
  | bye
  | ms
  | timeAndDate
  | utcTimeAndDate
  deriving DecidableEq, Repr

namespace Primitive

/-- The name under which a primitive is entered in the dictionary. -/
def name : Primitive → String
  | .depth => "DEPTH"
  | .drop => "DROP"
  | .dup => "DUP"
  | .over => "OVER"
  | .swap => "SWAP"
  | .rot => "ROT"
  | .pick => "PICK"
  | .roll => "ROLL"
  | .questionDup => "?DUP"
  | .nip => "NIP"
  | .tuck => "TUCK"
  | .twoDup => "2DUP"
  | .twoDrop => "2DROP"
  | .toR => ">R"
  | .rFrom => "R>"
  | .rFetch => "R@"
  | .store => "!"
  | .fetch => "@"
  | .cStore => "C!"
  | .cFetch => "C@"
  | .here => "HERE"
  | .allot => "ALLOT"
  | .align => "ALIGN"
  | .aligned => "ALIGNED"
  | .cellPlus => "CELL+"
  | .cells => "CELLS"
  | .unused => "UNUSED"
  | .comma => ","
  | .cComma => "C,"
  | .plus => "+"
  | .minus => "-"
  | .star => "*"
  | .slash => "/"
  | .slashMod => "/MOD"
  | .mod => "MOD"
  | .negate => "NEGATE"
  | .onePlus => "1+"
  | .oneMinus => "1-"
  | .and => "AND"
  | .or => "OR"
  | .xor => "XOR"
  | .invert => "INVERT"
  | .lShift => "LSHIFT"
  | .rShift => "RSHIFT"
  | .equals => "="
  | .less => "<"
  | .greater => ">"
  | .uLess => "U<"
  | .notEquals => "<>"
  | .zeroEquals => "0="
  | .zeroLess => "0<"
  | .exit => "EXIT"
  | .literal => "(LITERAL)"
  | .branch => "(BRANCH)"
  | .zeroBranch => "(0BRANCH)"
  | .execute => "EXECUTE"
  | .find => "FIND"
  | .words => "WORDS"
  | .latest => "LATEST"
  | .immediate => "IMMEDIATE"
  | .hidden => "HIDDEN"
  | .toBody => ">BODY"
  | .state => "STATE"
  | .leftBracket => "["
  | .rightBracket => "]"
  | .emit => "EMIT"
  | .type => "TYPE"
  | .cr => "CR"
  | .toIn => ">IN"
  | .source => "SOURCE"
  | .refill => "REFILL"
  | .argCount => "#ARG"
  | .arg => "ARG"
  | .bye => "BYE"
  | .ms => "MS"
  | .timeAndDate => "TIME&DATE"
  | .utcTimeAndDate => "UTCTIME&DATE"

/-- The table of primitives. -/
def all : List Primitive :=
  [.depth, .drop, .dup, .over, .swap, .rot, .pick, .roll, .questionDup, .nip, .tuck, .twoDup,
   .twoDrop, .toR, .rFrom, .rFetch, .store, .fetch, .cStore, .cFetch, .here, .allot, .align,
   .aligned, .cellPlus, .cells, .unused, .comma, .cComma, .plus, .minus, .star, .slash, .slashMod,
   .mod, .negate, .onePlus, .oneMinus, .and, .or, .xor, .invert, .lShift, .rShift, .equals, .less,
   .greater, .uLess, .notEquals, .zeroEquals, .zeroLess, .exit, .literal, .branch, .zeroBranch,
   .execute, .find, .words, .latest, .immediate, .hidden, .toBody, .state, .leftBracket,
   .rightBracket, .emit, .type, .cr, .toIn, .source, .refill, .argCount, .arg, .bye, .ms,
   .timeAndDate, .utcTimeAndDate]

/-- The execution token of a primitive: its position in the table. -/
def token (p : Primitive) : Nat := all.idxOf p

/-- Whether a primitive is entered as immediate. -/
def isImmediate : Primitive → Bool
  | .leftBracket => true
  | _ => false

/-- The primitive of a given name, in either letter case. -/
def ofName? (name : String) : Option Primitive :=
  all.find? fun p => Name.same (Name.bytes p.name) (Name.bytes name)

end Primitive

end ThreadedForth
