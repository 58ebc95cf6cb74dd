import ExprEngine.Operator.Reduce
import ExprEngine.Program.Instruction

/-!
# Constant folding

An operator whose operands are constants is computed before the program runs, if that can make no
difference: the operator assigns nothing, no operand is a name or callable, the computation needs no
session and reports nothing, and no jump leads in between.  A real is no operand of a text
comparison, since its text hangs on the session.
-/

namespace ExprEngine

namespace Operator

/-- The value may be an operand of an operator that is computed beforehand. -/
def folds (op : Operator) (v : Value) : Bool :=
  match v.payload with
  | .name _ | .function _ | .command _ => false
  | .real _ => !op.comparesText
  | _ => true

/-- What the operator makes of constants in a session that holds nothing, if nothing is to
report. -/
def reduceConstants (op : Operator) (args : List Value) : Option Value :=
  match op.reduce args {} with
  | .ok v s => if s.diagnostics.isEmpty then some v else none
  | .error .. => none

end Operator

namespace Instr

/-- The constant that the instruction pushes, if the operator may be computed with it. -/
def constant? (op : Operator) (i : Instr Nat) : Option Value :=
  match i.op with
  | .push v => if op.folds v then some v else none
  | _ => none

/-- The instruction jumps behind an index. -/
def jumpsBehind (index : Nat) (i : Instr Nat) : Bool :=
  i.op.target?.any (index < ·)

end Instr

/-- Code that ends in the `n` operands of an operator, with the operator computed and one constant
in their place, if that can be done.  The code starts at index `start` of the program, and what it
is listed with covers the operands and the operator. -/
def foldLast? (op : Operator) (n : Nat) (span : Span) (start : Nat) (code : List (Instr Nat)) :
    Option (List (Instr Nat)) := do
  let kept := code.length - n
  let operands := code.drop kept
  guard (!op.assigns && operands.length == n && !code.any (·.jumpsBehind (start + kept)))
  let v ← op.reduceConstants (← operands.mapM (·.constant? op))
  return code.take kept ++ [⟨.push v, operands.foldl (fun s i => s.join i.span) span⟩]

end ExprEngine
