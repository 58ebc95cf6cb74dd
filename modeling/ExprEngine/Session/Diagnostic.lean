import ExprEngine.Grammar.Error
import ExprEngine.Operator.Basic
import ExprEngine.Pattern.Basic

/-!
# Failures and diagnostics

Why an evaluation is given up, and what it reports on its way.  Every evaluation that fails sends
one report of it (`Diagnostic.abort`); the other reports leave the evaluation going on.
-/

namespace ExprEngine

/-- Why the evaluation of a program is given up. -/
inductive EvalError where
  | divisionByZero
  | illegalAssignment
  | noSuchFunction (name : String)
  | domain
  | range
  | stackOverflow
  | tooManyRecursions
  | instructionLimit (limit : Nat)
  | arithmeticOverflow (op : Operator)
  | resultTooLong (function : Builtin)
  | commandNotAvailable (command : String)
  /-- An evaluation inside this one failed, and reported why. -/
  | aborted
deriving DecidableEq

/-- The text of the error. -/
def EvalError.message : EvalError → String
  | .divisionByZero => "division by zero"
  | .illegalAssignment => "illegal object of assignment"
  | .noSuchFunction name => name ++ ": no such function"
  | .domain => "argument outside of domain"
  | .range => "result outside of range"
  | .stackOverflow => "expression stack overflow"
  | .tooManyRecursions => "too many recursions"
  | .instructionLimit limit => "instruction count exceeded %max_instr (" ++ toString limit ++ ")."
  | .arithmeticOverflow op => op.symbol ++ " operator: arithmetic overflow"
  | .resultTooLong function => function.name ++ ": result too long"
  | .commandNotAvailable command => command ++ ": command not available"
  | .aborted => "evaluation aborted"

/-- Why a source has no value: it is no expression, or its program is given up. -/
inductive Failure where
  | compile (e : CompileError)
  | eval (e : EvalError)
deriving DecidableEq

/-- The text of the failure. -/
def Failure.message : Failure → String
  | .compile e => e.message
  | .eval e => e.message

/-- A defect of a program that no compiler made. -/
inductive Fault where
  | emptyStack
  | stackUnderflow (need available : Nat)
  | valuesLeft (count : Nat)
  | noCallee
  | unpatchedJump (index : Nat)
  | jumpOutOfRange (index : Nat)
  | notAJump (index : Nat)
  | truncatedTarget
  /-- An operator or function looks at an operand that is not there. -/
  | missingOperand (index count : Nat)
  | noOperand
deriving DecidableEq

/-- The text of the fault. -/
def Fault.message : Fault → String
  | .emptyStack => "stack underflow"
  | .stackUnderflow need available =>
    "stack underflow: need " ++ toString need ++ ", have " ++ toString available
  | .valuesLeft count => "expression left " ++ toString count ++ " values"
  | .noCallee => "CALL without a callee"
  | .unpatchedJump index => "unpatched jump at " ++ toString index
  | .jumpOutOfRange index => "jump at " ++ toString index ++ " out of range"
  | .notAJump index => "patch of non-jump instruction " ++ toString index
  | .truncatedTarget => "truncated jump target"
  | .missingOperand index count =>
    "index out of bounds: the len is " ++ toString count ++ " but the index is " ++ toString index
  | .noOperand => "attempt to subtract with overflow"

/-- Why an evaluation stops without a value: it fails, its program is defective, or it nests deeper
or runs longer than the bound that it was given. -/
inductive Halt where
  | failure (f : Failure)
  | fault (f : Fault)
  | exhausted
deriving DecidableEq

/-- The program is given up. -/
def EvalError.halt (e : EvalError) : Halt :=
  .failure (.eval e)

/-- A report to the host. -/
inductive Diagnostic where
  | number (e : NumberError)
  | realBeyondInteger
  | realBeyondTime
  | stepOverflow (op : Operator) (name : String)
  | pattern (e : PatternError)
  | undefinedMacro (name : String)
  /-- The evaluation is given up. -/
  | abort (f : Failure)
  | note (n : Note)
  | absoluteTimes (op : Operator)
  | absoluteTimeNegated
  | matchCountCompared
deriving DecidableEq

namespace Diagnostic

/-- The report is a warning, not an error. -/
def isWarning : Diagnostic → Bool
  | note _ | absoluteTimes _ | absoluteTimeNegated | matchCountCompared => true
  | _ => false

/-- What the report says. -/
def message : Diagnostic → String
  | number e => e.message
  | realBeyondInteger => "real value too large to convert to integer"
  | realBeyondTime => "real value too large to convert to time"
  | stepOverflow op x => "integer overflow in " ++ op.symbol ++ x
  | pattern e => e.message
  | undefinedMacro x => "macro not defined: " ++ x
  | abort f => f.message
  | note n => n.message
  | absoluteTimes op => "invalid operation " ++ op.symbol ++ " on absolute time values."
  | absoluteTimeNegated => "invalid operation - on absolute time value."
  | matchCountCompared => "regmatch() may return >= 1 for success."

/-- The line that the host shows. -/
def text (d : Diagnostic) : String :=
  (if d.isWarning then "warning: " else "error: ") ++ d.message

end Diagnostic

/-- A result, and the reports made on the way to it. -/
structure Logged (α : Type) where
  value : α
  log : List Diagnostic := []

namespace Logged

/-- A report and nothing else. -/
def report (d : Diagnostic) : Logged Unit :=
  ⟨(), [d]⟩

instance : Monad Logged where
  pure a := ⟨a, []⟩
  bind m f := ⟨(f m.value).value, m.log ++ (f m.value).log⟩

@[simp] theorem value_pure {α : Type} (a : α) : (pure a : Logged α).value = a := rfl

@[simp] theorem log_pure {α : Type} (a : α) : (pure a : Logged α).log = [] := rfl

@[simp] theorem value_bind {α β : Type} (m : Logged α) (f : α → Logged β) :
    (m >>= f).value = (f m.value).value := rfl

@[simp] theorem log_bind {α β : Type} (m : Logged α) (f : α → Logged β) :
    (m >>= f).log = m.log ++ (f m.value).log := rfl

instance : LawfulMonad Logged :=
  LawfulMonad.mk' Logged (fun m => by cases m; simp [Functor.map]) (fun _ _ => rfl)
    (fun _ _ _ => by simp [bind])

end Logged

end ExprEngine
