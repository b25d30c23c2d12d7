import ThreadedForth.Execution

/-!
# Sessions

How the machine carries out requests, from the application that owns it and from host programs
alike. A host program may run code that contains host words again; every such nesting spends one
unit of the budget, and what is left bounds the steps of each loop inside.
-/

namespace ThreadedForth

/-- Carry out a request. -/
def Request.perform (host : HostRunner) (budget : Nat) :
    (request : Request) → Machine → Run request.Reply
  | .push x, m => some (m.attempt (m.push x))
  | .pop, m => some (m.attemptWith m.pop)
  | .execute token, m => m.execute host budget token
  | .step, m => m.step host
  | .run, m => m.run host budget
  | .reset, m => some (m.attempt m.reset)
  | .find name, m => some (.done (m.find? name) m)
  | .defineColon name, m => some (m.attemptWith (m.define name .nested false))
  | .compileCell x, m => some (m.attempt (m.compileCell x))
  | .compileToken token, m => some (m.attempt (m.compileCell token))
  | .compileLiteral x, m => some (m.attempt (m.compileLiteral x))
  | .setHidden token hidden, m => some (m.attempt (m.setHidden token hidden))
  | .fetchCell address, m => some (m.inspect (m.space.fetch address))
  | .storeCell address x, m => some (m.attempt (m.storeCell address x))
  | .readBytes address length, m => some (m.inspect (m.space.fetchBytes address length.toNat))
  | .setCursor cursor, m => some (.done () { m with cursor := cursor })
  | .source, m => some (.done m.source m)
  | .isCompiling, m => some (.done m.isCompiling m)
  | .toIn, m => some (.done m.toIn m)
  | .flush, m => some (m.inspect m.flush)

namespace HostCode

/-- Carry out a host program, given how its requests are carried out. -/
def runWith (answer : (request : Request) → Machine → Run request.Reply) :
    HostCode → Machine → Run Unit
  | .done (.ok ()), m => some (.done () m)
  | .done (.error reason), m => some (.halted reason m)
  | .ask request next, m =>
      match answer request m with
      | some (.done reply n) => (next (.ok reply)).runWith answer n
      | some (.halted reason n) => (next (.error reason)).runWith answer n
      | none => none
  | .define name body next, m =>
      match m.define name (.host body) false with
      | .ok (token, n) => (next (.ok token)).runWith answer n
      | .error fault => (next (.error (.fault fault))).runWith answer m

/-- Carry out a host program within a budget. -/
def run : Nat → HostRunner
  | 0 => fun _ _ => none
  | budget + 1 => fun code m => code.runWith (fun request => request.perform (run budget) budget) m

end HostCode

/-- What an application does to its machine. -/
inductive Operation where
  | ask (request : Request)
  | define (name : String) (body : HostCode)

/-- What the machine answers to an operation that succeeds. -/
@[reducible]
def Operation.Reply : Operation → Type
  | .ask request => request.Reply
  | .define _ _ => Nat

/-- Carry out an operation within a budget. -/
def Operation.perform (budget : Nat) : (operation : Operation) → Machine → Run operation.Reply
  | .ask request, m => request.perform (HostCode.run budget) budget m
  | .define name body, m => some (m.attemptWith (m.define name (.host body) false))

end ThreadedForth
