import ExprEngine.Builtin.Text
import ExprEngine.Machine.State

/-!
# Calling built-in functions

Functions take their arguments as they stand on the stack and read them by the usual views.  Only
`test` evaluates a source; how that is done is a parameter here.
-/

namespace ExprEngine

namespace Machine

/-- A failure of the step counts as one that has been reported. -/
def aborting {α : Type} (x : Eval α) : Eval α := fun m =>
  match x m with
  | .error (.failure _) m => .error EvalError.aborted.halt m
  | r => r

end Machine

namespace Builtin

open Machine

/-! ### Arguments -/

/-- An argument, which a compiled call always provides. -/
def argument (args : List Value) (i : Nat) : Eval Value :=
  match args[i]? with
  | some v => pure v
  | none => fault (.missingOperand i args.length)

/-- The characters of an argument. -/
def chars (args : List Value) (i : Nat) : Eval (List Char) := do
  let v ← argument args i
  return ((← getSession).toText v).toList

/-- An argument as an integer. -/
def integer (args : List Value) (i : Nat) : Eval Int64 := do
  let v ← argument args i
  observe (·.toInt v)

/-- An argument as a real. -/
def real (args : List Value) (i : Nat) : Eval Float := do
  let v ← argument args i
  observe (·.toReal v)

/-- An optional argument as a position up to `last`. -/
def positionOr (absent : Nat) (args : List Value) (i last : Nat) : Eval Nat := do
  if i < args.length then return position (← integer args i).toInt last else return absent

/-- An index, or minus one for none. -/
def indexValue (i : Option Nat) : Value :=
  .int (i.elim (-1) Int64.ofNat)

/-- The value of some characters. -/
def textValue (cs : List Char) : Value :=
  .text (String.ofList cs)

/-- Minus one, zero or one. -/
def orderValue : Ordering → Value
  | .lt => .int (-1)
  | .eq => .int 0
  | .gt => .int 1

/-! ### Numbers -/

/-- A result that is no number although the arguments are is outside of the domain; one that is
infinite although they are finite is outside of the range. -/
def checkedReal (args : List Float) (result : Float) : Eval Value :=
  if result.isNaN && !args.any Float.isNaN then fail .domain
  else if result.isInf && args.all Float.isFinite then fail .range
  else return .real result

/-- A function of one real. -/
def ofReal (f : Float → Float) (args : List Value) : Eval Value := do
  let x ← real args 0
  checkedReal [x] (f x)

/-- The absolute value, as an integer if the argument is one. -/
def absolute (args : List Value) : Eval Value := do
  let v ← argument args 0
  match ← observe (·.number v) with
  | none => return .int 0
  | some (.int n) => return .int (if n < 0 then -n else n)
  | some n => return .real n.toReal.abs

/-- The remainder of a division toward zero. -/
def remainder (args : List Value) : Eval Value := do
  let divisor ← integer args 1
  if divisor = 0 then fail .divisionByZero
  else return .int (Int64.ofInt ((← integer args 0).toInt.tmod divisor.toInt))

/-- A random number: of 31 bits, below a bound, or between two bounds. -/
def random (args : List Value) : Eval Value := do
  match args.length with
  | 0 => return .int (Int64.ofNat ((← draw) >>> 33).toNat)
  | 1 => between 0 (Word.clamp ((← integer args 0).toInt - 1))
  | _ =>
    let lo ← integer args 0
    between (if lo < 0 then 0 else lo) (← integer args 1)
where
  /-- Draws only if there is a choice. -/
  between (lo hi : Int64) : Eval Value := do
    if hi ≤ lo then return .int lo else return .int (Random.between lo hi (← draw))

/-! ### Texts -/

/-- The fields of texts and widths, one behind the other; the last width may be missing. -/
def padded (used : Nat) : List Value → Eval (List Char)
  | [] => return []
  | [v] => do
    let cs := ((← getSession).toText v).toList
    if greatestLength < used + cs.length then fail (.resultTooLong .pad) else return cs
  | v :: w :: rest => do
    let cs := ((← getSession).toText v).toList
    let width := (← observe (·.toInt w)).toInt
    let used := used + fieldLength cs width
    if greatestLength < used then fail (.resultTooLong .pad)
    else return field cs width ++ (← padded used rest)

/-- The characters of all values, one text behind the other. -/
def joined (args : List Value) : Eval Value := do
  let s ← getSession
  return .text (String.join (args.map s.toText))

/-- The match count of a regular expression in a text; the match is kept for captures. -/
def searched (args : List Value) : Eval Value := do
  let pattern ← chars args 0
  let subject ← chars args 1
  match Pattern.regex? (String.ofList pattern) with
  | .error e =>
    report (.pattern e)
    return ⟨.int 0, true⟩
  | .ok p =>
    match p.find? (String.ofList subject) with
    | none => return ⟨.int 0, true⟩
    | some found =>
      modifySession fun s => { s with lastMatch := some found }
      return ⟨.int (Int64.ofNat found.count), true⟩

/-- Copies of a text. -/
def repeated (args : List Value) : Eval Value := do
  let cs ← chars args 0
  let n := (← integer args 1).toInt.toNat
  if greatestLength < cs.length * n then fail (.resultTooLong .strrep)
  else return textValue (copies n cs)

/-- Part of a text. -/
def part (args : List Value) : Eval Value := do
  let cs ← chars args 0
  let start := position (← integer args 1).toInt cs.length
  let count ← positionOr (cs.length - start) args 2 (cs.length - start)
  return textValue (Text.slice cs start count)

/-- The text with letters of one case up to a position. -/
def inCase (f : Char → Char) (args : List Value) : Eval Value := do
  let cs ← chars args 0
  return textValue (mapFirst f (← positionOr cs.length args 1 cs.length) cs)

/-- The kind of a value; for a reference also that of its variable. -/
def kind (args : List Value) : Eval Value := do
  let v ← argument args 0
  let s ← getSession
  match v.name? with
  | none => return .text v.payload.typeName
  | some x => return .text ("id:" ++ ((s.lookup x).map (·.payload.typeName)).getD "")

/-- What a function makes of its arguments, given how a source is evaluated. -/
def call (evaluate : String → Eval Value) (b : Builtin) (args : List Value) : Eval Value := do
  match b with
  | .abs => absolute args
  | .acos => ofReal Float.acos args
  | .ascii => return .int (((← chars args 0).head?.map fun c => Int64.ofNat c.toNat).getD 0)
  | .asin => ofReal Float.asin args
  | .atan => ofReal Float.atan args
  | .char => return textValue [charOfCode (← integer args 0).toInt]
  | .cos => ofReal Float.cos args
  | .exp => ofReal Float.exp args
  | .getpid => return .int (← get).host.processId
  | .isatty => return .bool (← get).host.terminal
  | .ln => ofReal Float.log args
  | .log10 => ofReal Float.log10 args
  | .mod => remainder args
  | .pad => return textValue (← padded 0 args)
  | .pow => do
    let x ← real args 0
    let y ← real args 1
    checkedReal [x, y] (x ^ y)
  | .rand => random args
  | .regmatch => searched args
  | .replace => do
    let old ← chars args 0
    let new ← chars args 1
    return textValue (Text.replace old new (← chars args 2))
  | .sin => ofReal Float.sin args
  | .sqrt => ofReal Float.sqrt args
  | .strcat => joined args
  | .strchr => do
    let cs ← chars args 0
    let set ← chars args 1
    return indexValue (firstIndex? set.contains (← positionOr 0 args 2 cs.length) cs)
  | .strcmp => do
    let a ← chars args 0
    return orderValue (Text.order a (← chars args 1))
  | .strlen => return .count (← chars args 0).length
  | .strncmp => do
    let a ← chars args 0
    let b ← chars args 1
    let n ← integer args 2
    if n < 0 then return orderValue (Text.order a b)
    else
      let n := n.toInt.toNat
      return orderValue (Text.order (a.take n) (b.take n))
  | .strrchr => do
    let cs ← chars args 0
    let set ← chars args 1
    if cs.isEmpty then return indexValue none
    else
      let last := cs.length - 1
      return indexValue (lastIndex? set.contains (← positionOr last args 2 last) cs)
  | .strrep => repeated args
  | .strstr => do
    let cs ← chars args 0
    let needle ← chars args 1
    return indexValue (firstPlace? needle (← positionOr 0 args 2 cs.length) cs)
  | .substr => part args
  | .systype => return .text "unix"
  | .tan => ofReal Float.tan args
  | .test => do
    let source ← chars args 0
    let v ← aborting (evaluate (String.ofList source))
    return (← getSession).resolve v
  | .time => return .time (← get).host.clock .absolute
  | .tolower => inCase Char.toLower args
  | .toupper => inCase Char.toUpper args
  | .trunc => return .int (← integer args 0)
  | .whatis => kind args

end Builtin

end ExprEngine
