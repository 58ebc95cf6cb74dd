import ExprEngine.Session.Basic

/-!
# Views of values

How a session reads a value as a number, a truth, an integer, a time, a real or a text.  A reference
is read as what it leads to, a text as the number at its front.  Views change nothing; they may
report that a value does not fit.
-/

namespace ExprEngine

namespace Num

/-- The number as an integer: seconds of a time, the whole part of a real, clamped with a report. -/
def toInt : Num → Logged Int64
  | int n => pure n
  | time t _ => pure t.sec
  | real f => do
    if !Binary.fitsWord f then Logged.report .realBeyondInteger
    return Binary.toWord f

/-- The number as a time; a real that is too large is reported and reads as zero. -/
def toTime : Num → Logged TimePair
  | int n => pure (.ofWord n)
  | time t _ => pure t
  | real f =>
    match TimePair.ofReal? f with
    | some t => pure t
    | none => do
      Logged.report .realBeyondTime
      return .zero

end Num

namespace Payload

/-- The number that a content is, a text being parsed. -/
def number : Payload → Logged (Option Num)
  | int n | pos n | enumerated n _ => pure (some (.int n))
  | time t kind => pure (some (.time t kind))
  | real f => pure (some (.real f))
  | text s =>
    match Literal.parse s.toList with
    | .ok (n, _) => pure (some (.ofNumber n))
    | .error e => do
      Logged.report (.number e)
      return none
  | name _ | function _ | command _ => pure none

end Payload

namespace Session

/-- The number that a value stands for; none for what is unbound, callable or too large. -/
def number (s : Session) (v : Value) : Logged (Option Num) :=
  match s.target? v with
  | some w => w.payload.number
  | none => pure none

/-- The value counts as true: its number is not zero. -/
def truth (s : Session) (v : Value) : Logged Bool := do
  return (← s.number v).any Num.isTrue

/-- The value as an integer, zero without a number. -/
def toInt (s : Session) (v : Value) : Logged Int64 := do
  match ← s.number v with
  | some n => n.toInt
  | none => return 0

/-- The value as a time, zero without a number. -/
def toTime (s : Session) (v : Value) : Logged TimePair := do
  match ← s.number v with
  | some n => n.toTime
  | none => return .zero

/-- The value as a real: a text by the real at its front, zero without a number. -/
def toReal (s : Session) (v : Value) : Logged Float :=
  match s.target? v with
  | some ⟨.text t, _⟩ => pure (Literal.leadingReal t.toList)
  | some w => do return ((← w.payload.number).map Num.toReal).getD 0.0
  | none => pure 0.0

/-- The value as a text; empty for what is unbound. -/
def toText (s : Session) (v : Value) : String :=
  match s.target? v with
  | some w => w.payload.render s.sigfigs
  | none => ""

/-- A copy of the variable of a name: an integer, a time or a real as such, all else as a text;
empty for what is unbound. -/
def resolveName (s : Session) (x : String) : Value :=
  match s.lookup x with
  | none => .blank
  | some v =>
    match v.payload with
    | .int n | .pos n | .enumerated n _ => .int n
    | .time t kind => .time t kind
    | .real f => .real f
    | _ => .text (s.toText v)

/-- The value itself, or a copy of the variable that it refers to. -/
def resolve (s : Session) (v : Value) : Value :=
  match v.name? with
  | some x => s.resolveName x
  | none => v

end Session

end ExprEngine
