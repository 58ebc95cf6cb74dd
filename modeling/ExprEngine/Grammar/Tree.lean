import ExprEngine.Program.Instruction

/-!
# Syntax trees

What the grammar reads out of a source: an expression with its operators, branches, calls and
substitutions, each part with the place of the text that it will be listed with.

The callee of a call is the last name that its text holds, since that is what stands on top of the
stack when the arguments begin (`Expr.trailingName?`).
-/

namespace ExprEngine

/-- An operator written before its operand. -/
inductive Unary where
  | not | plus | minus | increment | decrement
deriving DecidableEq

namespace Unary

/-- What the operator computes. -/
def operator : Unary → Operator
  | not => .not
  | plus => .add
  | minus => .sub
  | increment => .increment
  | decrement => .decrement

end Unary

/-- An operator written between its operands. -/
inductive Binary where
  | add | sub | mul | div
  | lt | gt | le | ge | eq | ne
  | same | differ | like | unlike
  | assign | addAssign | subAssign | mulAssign | divAssign
deriving DecidableEq

namespace Binary

/-- What the operator computes. -/
def operator : Binary → Operator
  | add => .add
  | sub => .sub
  | mul => .mul
  | div => .div
  | lt => .lt
  | gt => .gt
  | le => .le
  | ge => .ge
  | eq => .eq
  | ne => .ne
  | same => .same
  | differ => .differ
  | like => .like
  | unlike => .unlike
  | assign => .assign
  | addAssign => .addAssign
  | subAssign => .subAssign
  | mulAssign => .mulAssign
  | divAssign => .divAssign

end Binary

/-- An operand without parts. -/
inductive Leaf where
  /-- A constant, or a name that is read when an operator needs it. -/
  | value (v : Value)
  | param (s : Selector)
  /-- The text of a macro. -/
  | body (name : String)
  /-- The output of a command line. -/
  | output (line : String)

/-- What a substitution with a default looks at first. -/
inductive Subject where
  | variable (x : String)
  | param (s : Selector)

/-- The operand that is a subject alone. -/
def Subject.leaf : Subject → Leaf
  | .variable x => .value (.name x)
  | .param s => .param s

mutual

/-- An expression. -/
inductive Expr where
  | leaf (l : Leaf) (span : Span)
  /-- The subject, or a text in its place if the subject is empty.  The places are those of the
  subject, of all up to the text, and of the text. -/
  | fallback (subject : Subject) (text : String) (subjectSpan headSpan textSpan : Span)
  | unary (op : Unary) (operand : Expr) (span : Span)
  | binary (op : Binary) (left right : Expr) (span : Span)
  /-- Both, of which the second is the result. -/
  | sequence (first second : Expr) (span : Span)
  /-- The first if it is true, else the second. -/
  | either (left right : Expr) (span : Span)
  /-- The first if it is false, else the second. -/
  | both (left right : Expr) (span : Span)
  | choice (condition yes no : Expr) (question colon : Span)
  /-- The condition itself if it is true, else the other. -/
  | orElse (condition no : Expr) (question : Span)
  | call (callee : Expr) (args : Args) (span : Span)

/-- The arguments of a call. -/
inductive Args where
  | nil
  | cons (arg : Expr) (rest : Args)

end

namespace Args

/-- Number of arguments. -/
def length : Args → Nat
  | nil => 0
  | cons _ rest => rest.length + 1

/-- The arguments of a list. -/
def ofList : List Expr → Args
  | [] => nil
  | arg :: rest => cons arg (ofList rest)

@[simp] theorem length_ofList (args : List Expr) : (ofList args).length = args.length := by
  induction args with
  | nil => rfl
  | cons _ _ ih => simp [ofList, length, ih]

end Args

namespace Expr

/-- The name at the end of an expression, if its value is what stands there. -/
def trailingName? : Expr → Option String
  | leaf (.value v) _ => v.name?
  | sequence _ e _ | either _ e _ | both _ e _ | choice _ _ e _ _ | orElse _ e _ => e.trailingName?
  | _ => none

/-- The expression with another value for the operand at its end. -/
def withTrailing (v : Value) : Expr → Expr
  | leaf _ span => leaf (.value v) span
  | sequence a e span => sequence a (e.withTrailing v) span
  | either a e span => either a (e.withTrailing v) span
  | both a e span => both a (e.withTrailing v) span
  | choice c a e question colon => choice c a (e.withTrailing v) question colon
  | orElse c e question => orElse c (e.withTrailing v) question
  | e => e

end Expr

end ExprEngine
