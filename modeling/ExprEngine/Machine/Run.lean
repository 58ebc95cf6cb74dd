import ExprEngine.Builtin.Call
import ExprEngine.Program.Code

/-!
# Running programs

A program runs instruction by instruction above the height of the stack that it found, and leaves
one value, or none for an empty text.  A failure cuts the stack back to that height and is reported,
unless an evaluation inside has reported it.

Macros and `test` evaluate sources inside a run.  The steps here are written over any evaluator; the
evaluator of a nesting depth runs programs with the evaluator of one less (`Machine.evaluate`).
-/

namespace ExprEngine.Machine

/-! ### Selections -/

/-- One value as it is, several as a text with blanks between them, none as the empty text. -/
def joined (s : Session) : List Value → Value
  | [] => .blank
  | [v] => v
  | vs => .text (" ".intercalate (vs.map s.toText))

/-- Some part of the last match. -/
def ofMatch (s : Session) (part : Found → Option String) : Value :=
  ((s.lastMatch.bind part).map Value.text).getD .blank

/-- The value that a selector selects. -/
def selected (selector : Selector) : Eval Value := do
  let s ← getSession
  let ps := s.params
  match selector with
  | .count => return .count ps.length
  | .result => return s.result.getD .blank
  | .nth 0 => return .blank
  | .nth (n + 1) => return ps[n]?.getD .blank
  | .allButFirst n => return joined s (ps.drop n)
  | .fromLast 0 => return .blank
  | .fromLast (n + 1) => return ps.reverse[n]?.getD .blank
  | .allButLast n => return joined s (ps.take (ps.length - n))
  | .all => return joined s ps
  | .frameName => return .text s.frameName
  | .random =>
    if ps.isEmpty then return .blank
    else return ps[(← draw).toNat % ps.length]?.getD .blank
  | .capture n => return ofMatch s (·.group? n)
  | .captureLeft => return ofMatch s (some ·.left)
  | .captureRight => return ofMatch s (some ·.right)

/-! ### Commands and macros -/

/-- A command does its work; only one does any. -/
def runCommand (name arg : String) : Eval Value := do
  if name = "echo" then
    modifySession (·.write arg)
    return .int 1
  else fail (.commandNotAvailable name)

/-- The name and the argument of a command line, which may start with slashes. -/
def commandLine (line : String) : String × String :=
  let cs := (Text.trimStart line.toList).dropWhile (· == '/')
  match Text.splitAtFirst Ascii.isBlank cs with
  | some (name, arg) => (String.ofList name, String.ofList (Text.trimStart arg))
  | none => (String.ofList cs, "")

/-- What a command line writes, which is not written then. -/
def commandOutput (line : String) : Eval Value :=
  match commandLine line with
  | (name, arg) => if name = "echo" then return .text arg else fail (.commandNotAvailable name)

/-- Number of frames beyond which a macro does not run. -/
abbrev greatestDepth : Nat := 100

/-- The body of a macro is evaluated and its value becomes the result. -/
def runMacro (evaluate : String → Eval Value) (body : String) : Eval Unit := do
  if greatestDepth < (← getSession).frames.length then fail .tooManyRecursions
  else
    let v ← aborting (evaluate body)
    modifySession fun s => { s with result := some (s.resolve v) }

/-- A parameter for an argument: a reference is read when the call is made. -/
def parameter (s : Session) (v : Value) : Value :=
  if v.name?.isSome then .text (s.toText v) else v

/-- The call of a macro, in a frame of its own.  The caller gets its own result back however the
macro ends. -/
def callMacro (evaluate : String → Eval Value) (name body : String) (args : List Value) :
    Eval Value := fun m =>
  let outer := m.session
  let inner := { outer.pushFrame name (args.map (parameter outer)) with result := none }
  match runMacro evaluate body { m with session := inner } with
  | .ok () m =>
    let v := (m.session.result.map m.session.resolve).getD .blank
    .ok v { m with session := { m.session.popFrame with result := outer.result } }
  | .error e m => .error e { m with session := { m.session.popFrame with result := outer.result } }

/-- The call of the first value with the others. -/
def callValue (evaluate : String → Eval Value) : List Value → Eval Value
  | [] => fault .noCallee
  | callee :: args => do
    match callee.payload with
    | .function b => b.call evaluate args
    | .command c => do
      let s ← getSession
      runCommand c.name ((args.head?.map s.toText).getD "")
    | .name x =>
      match (← getSession).macroBody? x with
      | some body => callMacro evaluate x body args
      | none => fail (.noSuchFunction x)
    | _ => fail (.noSuchFunction callee.display)

/-! ### Instructions -/

/-- The jump is taken, given the top of the stack. -/
def jumps (kind : JumpKind) (base : Nat) : Eval Bool := do
  match kind with
  | .always => return true
  | .ifFalse =>
    let v ← top base
    return !(← observe (·.truth v))
  | .ifTrue =>
    let v ← top base
    observe (·.truth v)
  | .ifNonEmpty => return !(← top base).isBlank

/-- One operation above a height of the stack, and the jump that it makes. -/
def step (evaluate : String → Eval Value) (base : Nat) (op : Op Nat) : Eval (Option Nat) := do
  match op with
  | .jump kind target => return if ← jumps kind base then some target else none
  | .push v => push v
  | .pop n => let _ ← popMany base n
  | .dup => push (← top base)
  | .pushVariable x => push ((← getSession).resolveName x)
  | .pushParam s => push (← selected s)
  | .pushBody name =>
    match (← getSession).macroBody? name with
    | some body => push (.text body)
    | none =>
      report (.undefinedMacro name)
      push .blank
  | .pushOutput line => push (← commandOutput line)
  | .call n => push (← callValue evaluate (← popMany base n))
  | .reduce op n =>
    let args ← popMany base n
    push (← inSession (op.reduce args))
  return none

/-- The program from index `pc` on, with so many instructions left before it halts. -/
def runFrom (evaluate : String → Eval Value) (base : Nat) (p : Program) (spent : Halt) :
    (budget pc : Nat) → Eval Unit
  | 0, pc => if pc < p.code.size then throw spent else return
  | budget + 1, pc =>
    match p.code[pc]? with
    | none => return
    | some i => do
      let target ← step evaluate base i.op
      runFrom evaluate base p spent budget (target.getD (pc + 1))

/-- Number of instructions of a program that has no limit. -/
abbrev noLimit : Nat := 0x4000000000000000

/-- The number of instructions that a program may run, and how it halts after them. -/
def budget (s : Settings) : Nat × Halt :=
  if s.maxInstr = 0 then (noLimit, .exhausted)
  else (s.maxInstr, (EvalError.instructionLimit s.maxInstr).halt)

/-- The machine after a failure of a program that started at some height: it is reported unless it
has been. -/
def unwind (m : Machine) (base : Nat) (e : EvalError) : Machine :=
  let session := if e = .aborted then m.session else m.session.report (.abort (.eval e))
  { m with stack := m.stack.drop (m.stack.length - base), session }

/-- The value of a program. -/
def execute (evaluate : String → Eval Value) (p : Program) : Eval Value := fun m =>
  let base := m.stack.length
  let (budget, spent) := budget m.settings
  match runFrom evaluate base p spent budget 0 m with
  | .error (.failure (.eval e)) m => .error e.halt (m.unwind base e)
  | .error h m => .error h m
  | .ok () m =>
    match m.stack.length - base, m.stack with
    | 0, _ => .ok .blank m
    | 1, v :: rest => .ok v { m with stack := rest }
    | n, _ => .error (.fault (.valuesLeft n)) m

/-- The program of a source, with the remarks on it. -/
def compile (source : String) : Eval (Except CompileError Program) := fun m =>
  let (result, notes) :=
    Program.compile m.settings.optimize m.session.findCommand? source
  .ok result (notes.foldl remark m)

/-- The value of a source; a failure is reported. -/
def evaluateWith (evaluate : String → Eval Value) (source : String) : Eval Value := do
  match ← compile source with
  | .ok p => execute evaluate p
  | .error e =>
    report (.abort (.compile e))
    throw (.failure (.compile e))

/-- The value of a source in which evaluations nest less deeply than `depth`. -/
def evaluate : (depth : Nat) → String → Eval Value
  | 0, _ => throw .exhausted
  | depth + 1, source => evaluateWith (evaluate depth) source

end ExprEngine.Machine
