import ThreadedForth.Word.Arithmetic
import ThreadedForth.Word.Control
import ThreadedForth.Word.Environment
import ThreadedForth.Word.Lookup
import ThreadedForth.Word.Memory
import ThreadedForth.Word.Shuffle

/-!
# The effect of each primitive

Every primitive but one acts on the machine by itself. The exception invokes the word whose token is
on the stack, and so has no effect of its own: it is carried out where words are invoked.
-/

namespace ThreadedForth

/-- What a word does when it is invoked. -/
abbrev Effect := Machine → Outcome Unit

namespace Effect

/-- A change that either happens or is refused without effect. -/
def change (f : Machine → Except Fault Machine) : Effect := fun m => m.attempt (f m)

/-- A change of the data stack alone. -/
def onData (f : Stack .data → Except Fault (Stack .data)) : Effect :=
  change fun m => do return { m with data := ← f m.data }

/-- A change of the two stacks alone. -/
def onStacks (f : Stack .data → Stack .returns → Except Fault (Stack .data × Stack .returns)) :
    Effect :=
  change fun m => do
    let (data, returns) ← f m.data m.returns
    return { m with data := data, returns := returns }

end Effect

open Effect

/-- The effect of a primitive, unless the primitive invokes another word in its place. -/
def Primitive.effect? : Primitive → Option Effect
  | .depth => onData Stack.pushDepth
  | .drop => onData Stack.drop
  | .dup => onData Stack.dup
  | .over => onData Stack.copySecond
  | .swap => onData Stack.swap
  | .rot => onData Stack.rot
  | .pick => onData Stack.pick
  | .roll => onData Stack.roll
  | .questionDup => onData Stack.dupNonzero
  | .nip => onData Stack.nip
  | .tuck => onData Stack.tuck
  | .twoDup => onData Stack.dupPair
  | .twoDrop => onData Stack.dropPair
  | .toR => onStacks Stack.toReturn
  | .rFrom => onStacks Stack.fromReturn
  | .rFetch => onStacks Stack.copyReturn
  | .store => change Machine.storeWord
  | .fetch => change Machine.fetchWord
  | .cStore => change Machine.storeByteWord
  | .cFetch => change Machine.fetchByteWord
  | .here => change Machine.hereWord
  | .allot => change Machine.allotWord
  | .align => change Machine.alignWord
  | .aligned => onData (Stack.unary Cell.alignWrapping)
  | .cellPlus => onData (Stack.unary (· + 8))
  | .cells => onData (Stack.unary (· * 8))
  | .unused => change Machine.unusedWord
  | .comma => change Machine.commaWord
  | .cComma => change Machine.byteCommaWord
  | .plus => onData (Stack.binary (· + ·))
  | .minus => onData (Stack.binary (· - ·))
  | .star => onData (Stack.binary (· * ·))
  | .slash => onData (Stack.divide fun x y => [x.quotient y])
  | .slashMod => onData (Stack.divide fun x y => [x.remainder y, x.quotient y])
  | .mod => onData (Stack.divide fun x y => [x.remainder y])
  | .negate => onData (Stack.unary (0 - ·))
  | .onePlus => onData (Stack.unary (· + 1))
  | .oneMinus => onData (Stack.unary (· - 1))
  | .and => onData (Stack.binary (· &&& ·))
  | .or => onData (Stack.binary (· ||| ·))
  | .xor => onData (Stack.binary (· ^^^ ·))
  | .invert => onData (Stack.unary (~~~ ·))
  | .lShift => onData (Stack.binary Cell.shiftLeft)
  | .rShift => onData (Stack.binary Cell.shiftRight)
  | .equals => onData (Stack.binary Cell.equal)
  | .less => onData (Stack.binary Cell.less)
  | .greater => onData (Stack.binary fun x y => y.less x)
  | .uLess => onData (Stack.binary Cell.lessUnsigned)
  | .notEquals => onData (Stack.binary Cell.differ)
  | .zeroEquals => onData (Stack.unary (Cell.equal · 0))
  | .zeroLess => onData (Stack.unary (Cell.less · 0))
  | .exit => change Machine.exitWord
  | .literal => change Machine.literalWord
  | .branch => change Machine.branchWord
  | .zeroBranch => change Machine.zeroBranchWord
  | .execute => none
  | .find => change Machine.findWord
  | .words => some Machine.wordsWord
  | .latest => change Machine.latestWord
  | .immediate => change Machine.immediateWord
  | .hidden => change Machine.hiddenWord
  | .toBody => change Machine.bodyWord
  | .state => change Machine.stateWord
  | .leftBracket => change fun m => m.setCompiling false
  | .rightBracket => change fun m => m.setCompiling true
  | .emit => some Machine.emitWord
  | .type => some Machine.typeWord
  | .cr => some Machine.newlineWord
  | .toIn => change Machine.toInWord
  | .source => change Machine.sourceWord
  | .refill => some Machine.refillWord
  | .argCount => change Machine.argumentCountWord
  | .arg => change Machine.argumentWord
  | .bye => some Machine.byeWord
  | .ms => change Machine.waitWord
  | .timeAndDate => change fun m => m.dateWord m.clock.localTime
  | .utcTimeAndDate => change fun m => m.dateWord m.clock.universalTime

end ThreadedForth
