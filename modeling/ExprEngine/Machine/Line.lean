import ExprEngine.Machine.Run

/-!
# Lines of input

A line is a directive, which has no value, or an expression.  A directive's word is followed by one
space; any other line that starts with a slash is read as an expression.
-/

namespace ExprEngine

/-- What a line asks for. -/
inductive Line where
  /-- Define a macro. -/
  | define (args : List Char)
  /-- Set a global variable, and perhaps the number of significant digits. -/
  | setGlobal (args : List Char)
  /-- Set a variable of the innermost scope. -/
  | setLocal (args : List Char)
  | expression (source : String)
deriving DecidableEq

/-- What a line asks for, white space around it being dropped. -/
def Line.ofText (text : String) : Line :=
  let cs := Text.trim text.toList
  match Text.dropStart? "/def ".toList cs, Text.dropStart? "/set ".toList cs,
      Text.dropStart? "/let ".toList cs with
  | some args, _, _ => .define args
  | none, some args, _ => .setGlobal args
  | none, none, some args => .setLocal args
  | none, none, none => .expression (String.ofList cs)

/-- The session with a global variable set; the number of significant digits follows its
variable. -/
def Session.setVariable (s : Session) (name value : String) : Except DirectiveError Session :=
  if name = "sigfigs" then
    match Settings.number name value with
    | .ok n => .ok ((s.setSigfigs n).setGlobal name (.text value))
    | .error e => .error (.setting e)
  else .ok (s.setGlobal name (.text value))

namespace Machine

/-- Evaluations inside a line nest less deeply than this. -/
abbrev nesting : Nat := 10000

/-- The value of a source; a failure is reported. -/
def evaluateSource (source : String) : Eval Value :=
  evaluateWith (evaluate nesting) source

/-- The value of a program; a failure is reported. -/
def runProgram (p : Program) : Eval Value :=
  execute (evaluate nesting) p

/-- The session after a directive, if it is accepted. -/
def directed (change : Session → Except DirectiveError Session) :
    Eval (Except DirectiveError (Option Value)) := fun m =>
  match change m.session with
  | .ok session => .ok (.ok none) { m with session }
  | .error e => .ok (.error e) m

/-- What a line does, and its value if it has one. -/
def runLine (text : String) : Eval (Except DirectiveError (Option Value)) :=
  match Line.ofText text with
  | .define args => directed fun s => do
    let (name, body) ← Directive.definition args
    return s.defineMacro name body
  | .setGlobal args => directed fun s => do
    let (name, value) ← Directive.setting args
    s.setVariable name value
  | .setLocal args => directed fun s => do
    let (name, value) ← Directive.setting args
    return s.setLocal name (.text value)
  | .expression source => return .ok (some (← evaluateSource source))

end Machine

end ExprEngine
