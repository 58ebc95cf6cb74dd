import ExprEngine.Grammar.Tree

/-!
# Operator symbols and their precedence

From the loosest to the tightest: the comma; assignment, to the right; `?:`, to the right; `|`; `&`;
comparison; sum; product; the signs and `!` in front of an operand; a call.  The levels from `|` to
the product bind to the left (`Level`).

Each reader here gives the symbol in front of a text and the number of its characters.  A sum or
product sign followed by `=` is an assignment.
-/

namespace ExprEngine.Grammar

/-- A precedence level whose operators stand between operands and bind to the left. -/
inductive Level where
  | product | sum | comparison | conjunction | disjunction
deriving DecidableEq

/-- What joins two operands of a level. -/
inductive Joiner where
  | binary (op : Binary)
  | either
  | both
deriving DecidableEq

/-- The expression of two joined operands. -/
def Joiner.build (j : Joiner) (left right : Expr) (span : Span) : Expr :=
  match j with
  | .binary op => .binary op left right span
  | .either => .either left right span
  | .both => .both left right span

namespace Level

/-- Looser levels have greater ranks. -/
def rank : Level → Nat
  | product => 0
  | sum => 1
  | comparison => 2
  | conjunction => 3
  | disjunction => 4

/-- The next tighter level. -/
def tighter? : Level → Option Level
  | product => none
  | sum => some product
  | comparison => some sum
  | conjunction => some comparison
  | disjunction => some conjunction

theorem rank_of_tighter? {l m : Level} (h : l.tighter? = some m) : l.rank = m.rank + 1 := by
  cases l <;> cases h <;> rfl

/-- The operator of a sign unless `=` follows. -/
def unlessAssignment (op : Binary) : List Char → Option (Joiner × Nat)
  | '=' :: _ => none
  | _ => some (.binary op, 1)

/-- The operator of a level in front of a text. -/
def joiner? : Level → List Char → Option (Joiner × Nat)
  | product, '*' :: cs => unlessAssignment .mul cs
  | product, '/' :: cs => unlessAssignment .div cs
  | sum, '+' :: cs => unlessAssignment .add cs
  | sum, '-' :: cs => unlessAssignment .sub cs
  | comparison, '=' :: '=' :: _ => some (.binary .eq, 2)
  | comparison, '=' :: '~' :: _ => some (.binary .same, 2)
  | comparison, '=' :: '/' :: _ => some (.binary .like, 2)
  | comparison, '!' :: '=' :: _ => some (.binary .ne, 2)
  | comparison, '!' :: '~' :: _ => some (.binary .differ, 2)
  | comparison, '!' :: '/' :: _ => some (.binary .unlike, 2)
  | comparison, '<' :: '=' :: _ => some (.binary .le, 2)
  | comparison, '>' :: '=' :: _ => some (.binary .ge, 2)
  | comparison, '<' :: _ => some (.binary .lt, 1)
  | comparison, '>' :: _ => some (.binary .gt, 1)
  | conjunction, '&' :: _ => some (.both, 1)
  | disjunction, '|' :: _ => some (.either, 1)
  | _, _ => none

end Level

/-- The assignment in front of a text. -/
def assignment? : List Char → Option (Binary × Nat)
  | ':' :: '=' :: _ => some (.assign, 2)
  | '+' :: '=' :: _ => some (.addAssign, 2)
  | '-' :: '=' :: _ => some (.subAssign, 2)
  | '*' :: '=' :: _ => some (.mulAssign, 2)
  | '/' :: '=' :: _ => some (.divAssign, 2)
  | '=' :: _ => some (.assign, 1)
  | _ => none

/-- The operator before an operand in front of a text. -/
def unary? : List Char → Option (Unary × Nat)
  | '!' :: _ => some (.not, 1)
  | '+' :: '+' :: _ => some (.increment, 2)
  | '-' :: '-' :: _ => some (.decrement, 2)
  | '+' :: _ => some (.plus, 1)
  | '-' :: _ => some (.minus, 1)
  | _ => none

end ExprEngine.Grammar
