/-!
# Operators

The operators that take values from the stack and leave one.  How an operator is spelled in a source
is also how listings and messages name it.
-/

namespace ExprEngine

/-- An operator of the stack machine. -/
inductive Operator where
  | add | sub | mul | div
  | lt | gt | le | ge | eq | ne
  | same | differ
  | like | unlike
  | not
  | assign | addAssign | subAssign | mulAssign | divAssign
  | increment | decrement
deriving DecidableEq

namespace Operator

/-- All operators. -/
def all : List Operator :=
  [.add, .sub, .mul, .div, .lt, .gt, .le, .ge, .eq, .ne, .same, .differ, .like, .unlike, .not,
   .assign, .addAssign, .subAssign, .mulAssign, .divAssign, .increment, .decrement]

/-- How the operator is spelled. -/
def symbol : Operator → String
  | .add => "+"
  | .sub => "-"
  | .mul => "*"
  | .div => "/"
  | .lt => "<"
  | .gt => ">"
  | .le => "<="
  | .ge => ">="
  | .eq => "=="
  | .ne => "!="
  | .same => "=~"
  | .differ => "!~"
  | .like => "=/"
  | .unlike => "!/"
  | .not => "!"
  | .assign => ":="
  | .addAssign => "+="
  | .subAssign => "-="
  | .mulAssign => "*="
  | .divAssign => "/="
  | .increment => "++"
  | .decrement => "--"

/-- The operator changes a variable. -/
def assigns : Operator → Bool
  | .assign | .addAssign | .subAssign | .mulAssign | .divAssign | .increment | .decrement => true
  | _ => false

/-- The operator compares texts, in whole or with a pattern. -/
def comparesText : Operator → Bool
  | .same | .differ | .like | .unlike => true
  | _ => false

/-- The operator whose result a compound assignment stores; any other operator itself. -/
def base : Operator → Operator
  | .addAssign => .add
  | .subAssign => .sub
  | .mulAssign => .mul
  | .divAssign => .div
  | op => op

/-- The operator of a symbol. -/
def find? (symbol : String) : Option Operator :=
  all.find? (·.symbol == symbol)

theorem find?_symbol (op : Operator) : find? op.symbol = some op := by
  cases op <;> decide

end Operator

end ExprEngine
