import ExprEngine.Operator.Arithmetic

/-!
# Reduction

What an operator does with the values that it takes from the stack, the deepest first: it computes a
value, compares texts, or assigns to the variable that its first operand names.

A failing operator changes no variable: every assignment is the last thing that its operator does.
-/

namespace ExprEngine

/-- A step in a session that may halt the evaluation. -/
abbrev SessionM := EStateM Halt Session

namespace SessionM

/-- A reading of the session, whose reports are recorded. -/
def observe {α : Type} (view : Session → Logged α) : SessionM α := fun s =>
  let r := view s
  .ok r.value (s.record r.log)

/-- A result that may be a failure. -/
def ofExcept {α : Type} : Except Halt α → SessionM α
  | .ok a => pure a
  | .error e => throw e

end SessionM

namespace Operator

/-- The operand at an index, which a compiled program always provides. -/
def operand (args : List Value) (i : Nat) : SessionM Value :=
  match args[i]? with
  | some v => pure v
  | none => throw (.fault (.missingOperand i args.length))

/-- The variable that the first operand names. -/
def target (args : List Value) : SessionM String := do
  match (← operand args 0).name? with
  | some x => return x
  | none => throw EvalError.illegalAssignment.halt

/-- The value is stored in the variable and is the result too. -/
def store (x : String) (v : Value) : SessionM Value := do
  modify (·.assign x v)
  return v

/-- The result of arithmetic on operands that are read in order. -/
def compute (op : Operator) (operands : Session → Logged (List Operand)) : SessionM Value := do
  let n ← SessionM.ofExcept (← SessionM.observe fun s => do op.arithmetic (← operands s))
  SessionM.ofExcept ((op.result n).mapError EvalError.halt)

/-- The subject matches a glob; a glob that is refused is reported and matches nothing, whatever is
asked. -/
def matchGlob (wanted : Bool) (subject pattern : String) : Logged Bool :=
  match Pattern.glob? pattern with
  | .ok p => pure (p.isMatch subject == wanted)
  | .error e => do
    Logged.report (.pattern e)
    return false

/-- What the operator makes of its operands. -/
def reduce (op : Operator) (args : List Value) : SessionM Value :=
  match op with
  | .add | .sub | .mul | .div | .lt | .gt | .le | .ge | .eq | .ne =>
    op.compute fun s => args.mapM (Operand.read s)
  | .addAssign | .subAssign | .mulAssign | .divAssign => do
    let x ← target args
    let v ← operand args 1
    store x (← op.compute fun s => do return [← Operand.ofVariable s x, ← Operand.read s v])
  | .assign => do
    let x ← target args
    let v ← operand args 1
    match v.name? with
    | some y => store x (((← get).lookup y).getD .blank)
    | none => store x v
  | .increment | .decrement => do
    let x ← target args
    let current ← SessionM.observe fun s => match s.lookup x with
      | some v => s.toInt v
      | none => pure 0
    let step : Int64 := if op = .increment then 1 else -1
    if (Word.checkedAdd current step).isNone then modify (·.report (.stepOverflow op x))
    store x (.int (current + step))
  | .same | .differ => do
    let a ← operand args 0
    let b ← operand args 1
    let s ← get
    return .bool ((s.toText a == s.toText b) == (op == .same))
  | .like | .unlike => do
    let a ← operand args 0
    let b ← operand args 1
    return .bool (← SessionM.observe fun s => matchGlob (op == .like) (s.toText a) (s.toText b))
  | .not => do
    let a ← operand args 0
    return .bool (!(← SessionM.observe (·.truth a)))

end Operator

end ExprEngine
