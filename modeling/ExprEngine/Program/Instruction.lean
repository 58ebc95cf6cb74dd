import ExprEngine.Grammar.Error
import ExprEngine.Operator.Basic
import ExprEngine.Value.Basic

/-!
# Instructions and programs

The code of the stack machine.  Jumps are typed by what they hold for a target: while code is put
together it may still be open (`Option Nat`), in a program it is an index.
-/

namespace ExprEngine

/-- What a substitution selects from the running macro or the last match. -/
inductive Selector where
  /-- The number of parameters. -/
  | count
  /-- The last result. -/
  | result
  /-- The `n`th parameter, from one. -/
  | nth (n : Nat)
  | allButFirst (n : Nat)
  /-- The `n`th parameter from the end, from one. -/
  | fromLast (n : Nat)
  | allButLast (n : Nat)
  | all
  /-- The name of the running macro. -/
  | frameName
  /-- A parameter by chance. -/
  | random
  /-- The `n`th group of the last match. -/
  | capture (n : Nat)
  /-- What stands left of the last match. -/
  | captureLeft
  /-- What stands right of the last match. -/
  | captureRight
deriving DecidableEq

/-- How a selector is written in a substitution. -/
def Selector.text : Selector → String
  | .count => "#"
  | .result => "?"
  | .nth n => toString n
  | .allButFirst n => "-" ++ toString n
  | .fromLast n => "L" ++ toString n
  | .allButLast n => "-L" ++ toString n
  | .all => "*"
  | .frameName => "0"
  | .random => "R"
  | .capture n => "P" ++ toString n
  | .captureLeft => "PL"
  | .captureRight => "PR"

/-- When a jump is taken.  A conditional jump looks at the top of the stack and leaves it there. -/
inductive JumpKind where
  | always
  | ifFalse
  | ifTrue
  | ifNonEmpty
deriving DecidableEq

/-- An operation of the machine, with jump targets in `τ`. -/
inductive Op (τ : Type) where
  | push (v : Value)
  | pop (n : Nat)
  | dup
  | jump (kind : JumpKind) (target : τ)
  /-- Push a copy of a variable. -/
  | pushVariable (x : String)
  | pushParam (s : Selector)
  /-- Push the text of a macro. -/
  | pushBody (name : String)
  /-- Push the output of a command line. -/
  | pushOutput (line : String)
  /-- Call the deepest of `n` values with the others. -/
  | call (n : Nat)
  | reduce (op : Operator) (n : Nat)
deriving DecidableEq

/-- The jump target of an operation, if it jumps. -/
def Op.target? {τ : Type} : Op τ → Option τ
  | .jump _ t => some t
  | _ => none

/-- An operation and the part of the source that it comes from. -/
structure Instr (τ : Type) where
  op : Op τ
  span : Span
deriving DecidableEq

/-- A program, whose jumps all have a target. -/
structure Program where
  source : String
  code : Array (Instr Nat)
deriving DecidableEq

end ExprEngine
