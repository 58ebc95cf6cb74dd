import ExprEngine.Directive.Basic
import ExprEngine.Machine.Random
import ExprEngine.Operator.Reduce
import ExprEngine.Program.Instruction

/-!
# The state of the stack machine

One machine runs all programs of a session, those of macros above those of their callers.  Its stack
holds the values of all of them; a program works above the height that it found.
-/

namespace ExprEngine

/-- What the machine knows of the system it runs on. -/
structure Host where
  /-- The time since the start of 1970. -/
  clock : TimePair := .zero
  processId : Int64 := 0
  /-- Standard input is a terminal. -/
  terminal : Bool := false
  /-- The seed of a generator that nobody seeded. -/
  entropy : UInt64 := Random.fallbackSeed

/-- A machine, the top of its stack first. -/
structure Machine where
  settings : Settings := {}
  host : Host := {}
  stack : List Value := []
  /-- The remark on brackets has been made. -/
  saidBracketed : Bool := false
  /-- The remark on percent signs has been made. -/
  saidPercent : Bool := false
  /-- State of the random numbers; zero before the first draw or seed. -/
  random : UInt64 := 0
  session : Session := {}

/-- A step of the machine that may halt. -/
abbrev Eval := EStateM Halt Machine

namespace Machine

/-- A step in the machine's session. -/
def inSession {α : Type} (x : SessionM α) : Eval α := fun m =>
  match x m.session with
  | .ok a session => .ok a { m with session }
  | .error e session => .error e { m with session }

/-- A reading of the session, whose reports are recorded. -/
def observe {α : Type} (view : Session → Logged α) : Eval α :=
  inSession (SessionM.observe view)

/-- The session as it is. -/
def getSession : Eval Session :=
  return (← get).session

/-- A change of the session. -/
def modifySession (f : Session → Session) : Eval Unit :=
  modify fun m => { m with session := f m.session }

/-- A report to the session. -/
def report (d : Diagnostic) : Eval Unit :=
  modifySession (·.report d)

/-- The evaluation is given up. -/
def fail {α : Type} (e : EvalError) : Eval α :=
  throw e.halt

/-- The program is defective. -/
def fault {α : Type} (f : Fault) : Eval α :=
  throw (.fault f)

/-! ### The stack -/

/-- A value more on the stack. -/
def push (v : Value) : Eval Unit := do
  let m ← get
  if m.settings.stackSize ≤ m.stack.length then fail .stackOverflow
  else modify fun m => { m with stack := v :: m.stack }

/-- The top `n` values above a height are removed, the deepest first. -/
def popMany (base n : Nat) : Eval (List Value) := do
  let available := (← get).stack.length - base
  if available < n then fault (.stackUnderflow n available)
  else
    let values := ((← get).stack.take n).reverse
    modify fun m => { m with stack := m.stack.drop n }
    return values

/-- The top value, if it is above a height. -/
def top (base : Nat) : Eval Value := do
  match (← get).stack with
  | v :: rest => if base ≤ rest.length then return v else fault .emptyStack
  | [] => fault .emptyStack

/-! ### Random numbers -/

/-- A random number. -/
def draw : Eval UInt64 := do
  let m ← get
  let x := Random.next (if m.random = 0 then Random.seeded m.host.entropy else m.random)
  set { m with random := x }
  return x

/-- The machine with its random numbers seeded. -/
def seed (m : Machine) (n : UInt64) : Machine :=
  { m with random := Random.seeded n }

/-! ### Remarks -/

/-- Words with a meaning in the scripts that expressions are part of. -/
def keywords : List String :=
  ["BREAK", "DO", "DONE", "ELSE", "ELSEIF", "ENDIF", "EXIT", "IF", "LET", "RESULT", "RETURN", "SET",
   "SETENV", "TEST", "THEN", "WHILE"]

/-- The remark is made now, given what has been remarked and what the session knows. -/
def wants (m : Machine) : Note → Bool
  | .bracketed => m.settings.pedantic || !m.saidBracketed
  | .percent .. => m.settings.pedantic || !m.saidPercent
  | .afterSlash x =>
    keywords.any (Ascii.sameWord · x) || (m.session.findCommand? x).isSome ||
      (m.session.macroBody? x).isSome
  | .needlessEscape .. => m.settings.pedantic

/-- The machine after a remark that it may make. -/
def remark (m : Machine) (n : Note) : Machine :=
  if m.wants n then
    { m with
      saidBracketed := m.saidBracketed || n == .bracketed
      saidPercent := m.saidPercent || n matches .percent ..
      session := m.session.report (.note n) }
  else m

end Machine

end ExprEngine
