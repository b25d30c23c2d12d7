import ThreadedForth.Fault

/-!
# Host programs

An application that embeds the machine acts on it through requests, and may add words whose bodies
are programs of its own. Such a program is data: a tree of requests, branching on the machine's
answers. It can do to the machine what the application can do, and nothing else.
-/

namespace ThreadedForth

/-- The operations that the machine offers to its host, apart from adding host words. -/
inductive Request where
  | push (x : Cell)
  | pop
  | execute (token : Cell)
  | step
  | run
  | reset
  | find (name : String)
  | defineColon (name : String)
  | compileCell (x : Cell)
  | compileToken (token : Cell)
  | compileLiteral (x : Cell)
  | setHidden (token : Cell) (hidden : Bool)
  | fetchCell (address : Cell)
  | storeCell (address x : Cell)
  | readBytes (address length : Cell)
  | setCursor (cursor : Option Cell)
  | source
  | isCompiling
  | toIn
  | flush

/-- What the machine answers to a request that succeeds; a free run only ever ends by halting. -/
@[reducible]
def Request.Reply : Request → Type
  | .pop | .fetchCell _ | .toIn => Cell
  | .find _ => Option Nat
  | .defineColon _ => Nat
  | .readBytes _ _ | .source => List UInt8
  | .isCompiling => Bool
  | .run => Empty
  | .push _ | .execute _ | .step | .reset | .compileCell _ | .compileToken _ | .compileLiteral _
  | .setHidden _ _ | .storeCell _ _ | .setCursor _ | .flush => Unit

/-- The body of a host word: end with a result, make a request, or add another host word. -/
inductive HostCode where
  | done (result : Except Halt Unit)
  | ask (request : Request) (next : Except Halt request.Reply → HostCode)
  | define (name : String) (body : HostCode) (next : Except Halt Nat → HostCode)

namespace HostCode

/-- Make a request and go on with its answer; a halt ends the program. -/
def require (request : Request) (next : request.Reply → HostCode) : HostCode :=
  .ask request fun
    | .ok reply => next reply
    | .error halt => .done (.error halt)

/-- End the program successfully. -/
def finish : HostCode := .done (.ok ())

end HostCode

end ThreadedForth
