import ExprEngine.Program.Code

/-!
# Formulas

A formula is an expression as it is meant, with no place in any source.  This module says how a
formula is written, with a blank on either side of an operator and no parentheses but those that the
precedences of its parts ask for, and which operations compute it.

| precedence   | written there                                          |
|--------------|--------------------------------------------------------|
| `primary`    | names, numbers and quoted texts                        |
| `unary`      | a primary with arguments; an operator in front         |
| `level l`    | the operators of the level, which bind to the left     |
| `conditional`| `?:`, with any formula between its signs               |
| `assignment` | the assignments, which bind to the right               |
| `sequence`   | the comma, which binds to the left                     |

* `Formula.within`: the text of a formula where one of some precedence is wanted.
* `Formula.ops`: the operations of a formula, each operator behind its operands.
* `Formula.Passes`: every name that is called passes the checks made when a source is compiled.
-/

namespace ExprEngine

/-! ### Names, texts and what joins formulas -/

/-- A name, as it may stand in a source. -/
structure Identifier where
  first : Char
  rest : List Char
  starts : Ascii.isWordStart first = true
  goesOn : ∀ c ∈ rest, Ascii.isWord c = true

/-- The characters of a name. -/
def Identifier.chars (x : Identifier) : List Char :=
  x.first :: x.rest

/-- The name itself. -/
def Identifier.text (x : Identifier) : String :=
  String.ofList x.chars

/-- The marks that a text is quoted with. -/
inductive Quote where
  | double | single | back
deriving DecidableEq

namespace Quote

/-- How the mark is written. -/
def char : Quote → Char
  | double => '"'
  | single => '\''
  | back => '`'

/-- How characters are written between two marks: a backslash stands before the mark and before
another backslash. -/
def written (q : Quote) (cs : List Char) : List Char :=
  cs.flatMap fun c => if c = q.char ∨ c = '\\' then ['\\', c] else [c]

end Quote

/-- What stands between two formulas; an assignment is also written as `=`. -/
inductive Connective where
  | operator (op : Binary)
  | equals
  | either
  | both
  | comma
deriving DecidableEq

/-- The symbol of a connective. -/
def Connective.symbol : Connective → List Char
  | operator op => op.operator.symbol.toList
  | equals => ['=']
  | either => ['|']
  | both => ['&']
  | comma => [',']

/-! ### Precedences -/

namespace Grammar

/-- What may be read or written at some place. -/
inductive Precedence where
  | primary
  | unary
  | level (l : Level)
  | conditional
  | assignment
  | sequence
deriving DecidableEq

namespace Precedence

/-- Looser precedences have greater numbers. -/
def looseness : Precedence → Nat
  | primary => 0
  | unary => 1
  | level l => l.rank + 2
  | conditional => 7
  | assignment => 8
  | sequence => 9

/-- The next tighter precedence. -/
def tighter? : Precedence → Option Precedence
  | primary => none
  | unary => some primary
  | level l => some (match l.tighter? with
    | some m => level m
    | none => unary)
  | conditional => some (level .disjunction)
  | assignment => some conditional
  | sequence => some assignment

theorem looseness_of_tighter? {k j : Precedence} (h : k.tighter? = some j) :
    k.looseness = j.looseness + 1 := by
  cases k with
  | level l => cases l <;> cases h <;> rfl
  | _ => cases h <;> rfl

end Precedence

end Grammar

open Grammar

/-- The precedence of an operator between its operands. -/
def Binary.precedence : Binary → Precedence
  | .mul | .div => .level .product
  | .add | .sub => .level .sum
  | .lt | .gt | .le | .ge | .eq | .ne | .same | .differ | .like | .unlike => .level .comparison
  | .assign | .addAssign | .subAssign | .mulAssign | .divAssign => .assignment

namespace Connective

/-- The precedence of what is joined. -/
def precedence : Connective → Precedence
  | operator op => op.precedence
  | equals => .assignment
  | either => .level .disjunction
  | both => .level .conjunction
  | comma => .sequence

/-- The precedence that is wanted in front of the connective: its own if it binds to the left. -/
def leftPrecedence (i : Connective) : Precedence :=
  if i.precedence = .assignment then .conditional else i.precedence

/-- The precedence that is wanted behind the connective: its own if it binds to the right. -/
def rightPrecedence (i : Connective) : Precedence :=
  if i.precedence = .assignment then .assignment else i.precedence.tighter?.getD .primary

end Connective

/-! ### Formulas -/

mutual

/-- An expression as it is meant. -/
inductive Formula where
  | name (x : Identifier)
  /-- A whole number that is a word. -/
  | number (n : Fin 0x8000000000000000)
  | text (q : Quote) (s : String)
  | signed (op : Unary) (operand : Formula)
  | joined (i : Connective) (left right : Formula)
  | choice (condition yes no : Formula)
  | orElse (condition no : Formula)
  | call (callee : Formula) (args : Formulas)

/-- The arguments of a call. -/
inductive Formulas where
  | nil
  | cons (arg : Formula) (rest : Formulas)

end

/-- Number of arguments. -/
def Formulas.length : Formulas → Nat
  | nil => 0
  | cons _ rest => rest.length + 1

namespace Formula

/-- The precedence of a formula without parentheses around it. -/
def precedence : Formula → Precedence
  | name _ | number _ | text .. => .primary
  | signed .. | call .. => .unary
  | joined i .. => i.precedence
  | choice .. | orElse .. => .conditional

/-- The name at the end of a formula, if it is what the formula comes to there. -/
def trailingName? : Formula → Option String
  | name x => some x.text
  | joined .comma _ f | joined .either _ f | joined .both _ f => f.trailingName?
  | choice _ _ f | orElse _ f => f.trailingName?
  | _ => none

end Formula

/-! ### How formulas are written -/

/-- A text of some precedence where one of precedence `k` is wanted: in parentheses if it is
looser. -/
def parenthesized (k own : Precedence) (cs : List Char) : List Char :=
  if k.looseness < own.looseness then '(' :: cs ++ [')'] else cs

/-- What stands behind an argument, in front of those that follow. -/
def Formulas.separator : Formulas → List Char
  | nil => []
  | cons .. => [',', ' ']

mutual

/-- The text of a formula, without parentheses around it. -/
def Formula.chars : Formula → List Char
  | .name x => x.chars
  | .number n => Decimal.digits n
  | .text q s => q.char :: q.written s.toList ++ [q.char]
  | .signed op f => op.operator.symbol.toList ++ ' ' :: parenthesized .unary f.precedence f.chars
  | .joined i f g =>
    parenthesized i.leftPrecedence f.precedence f.chars ++ ' ' :: i.symbol ++
      ' ' :: parenthesized i.rightPrecedence g.precedence g.chars
  | .choice c f g =>
    parenthesized (.level .disjunction) c.precedence c.chars ++ ' ' :: '?' :: ' ' ::
      parenthesized .sequence f.precedence f.chars ++ ' ' :: ':' :: ' ' ::
        parenthesized .conditional g.precedence g.chars
  | .orElse c g =>
    parenthesized (.level .disjunction) c.precedence c.chars ++ ' ' :: '?' :: ':' :: ' ' ::
      parenthesized .conditional g.precedence g.chars
  | .call f args => parenthesized .primary f.precedence f.chars ++ '(' :: args.chars ++ [')']

/-- The text of the arguments of a call. -/
def Formulas.chars : Formulas → List Char
  | .nil => []
  | .cons f rest => parenthesized .assignment f.precedence f.chars ++ rest.separator ++ rest.chars

end

/-- The text of a formula where one of precedence `k` is wanted. -/
def Formula.within (k : Precedence) (f : Formula) : List Char :=
  parenthesized k f.precedence f.chars

/-- The source that is a formula. -/
def Formula.source (f : Formula) : String :=
  String.ofList (f.within .sequence)

/-! ### Operations of formulas -/

/-- What is called by a name: a function or a command of that name, else what it refers to when the
call is made. -/
def calledBy (commands : Commands) (x : String) : Value :=
  match Builtin.find? x with
  | some b => ⟨.function b, false⟩
  | none =>
    match commands x with
    | some c => ⟨.command c, false⟩
    | none => .name x

/-- What is called by a name may be called, with so many arguments. -/
def MayCall (commands : Commands) (x : String) (n : Nat) : Prop :=
  match Builtin.find? x with
  | some b => b.accepts n
  | none =>
    match commands x with
    | some c => c.callable ∧ n ≤ 1
    | none => True

mutual

/-- The operations of a formula that start at index `start`. -/
def Formula.ops (commands : Commands) (start : Nat) : Formula → List (Op Nat)
  | .name x => [.push (.name x.text)]
  | .number n => [.push (.int (Int64.ofNat n))]
  | .text _ s => [.push (.text s)]
  | .signed op f => f.ops commands start ++ [.reduce op.operator 1]
  | .joined i f g =>
    let left := f.ops commands start
    match i with
    | .operator op => left ++ g.ops commands (start + left.length) ++ [.reduce op.operator 2]
    | .equals => left ++ g.ops commands (start + left.length) ++ [.reduce .assign 2]
    | .comma => left ++ .pop 1 :: g.ops commands (start + left.length + 1)
    | .either =>
      let right := g.ops commands (start + left.length + 2)
      left ++ .jump .ifTrue (start + left.length + 2 + right.length) :: .pop 1 :: right
    | .both =>
      let right := g.ops commands (start + left.length + 2)
      left ++ .jump .ifFalse (start + left.length + 2 + right.length) :: .pop 1 :: right
  | .choice c f g =>
    let condition := c.ops commands start
    let yes := f.ops commands (start + condition.length + 2)
    let otherwise := start + condition.length + 2 + yes.length + 1
    let no := g.ops commands (otherwise + 1)
    condition ++ .jump .ifFalse otherwise :: .pop 1 :: yes ++
      .jump .always (otherwise + 1 + no.length) :: .pop 1 :: no
  | .orElse c g =>
    let condition := c.ops commands start
    let no := g.ops commands (start + condition.length + 2)
    condition ++ .jump .ifTrue (start + condition.length + 2 + no.length) :: .pop 1 :: no
  | .call f args =>
    let callee := f.ops commands start
    callee.dropLast ++ .push (calledBy commands (f.trailingName?.getD "")) ::
      args.ops commands (start + callee.length) ++ [.call (args.length + 1)]

/-- The operations of arguments in order. -/
def Formulas.ops (commands : Commands) (start : Nat) : Formulas → List (Op Nat)
  | .nil => []
  | .cons f rest =>
    let arg := f.ops commands start
    arg ++ rest.ops commands (start + arg.length)

end

mutual

/-- Every call is of a name that may be called so. -/
def Formula.Passes (commands : Commands) : Formula → Prop
  | .name _ | .number _ | .text .. => True
  | .signed _ f => f.Passes commands
  | .joined _ f g | .orElse f g => f.Passes commands ∧ g.Passes commands
  | .choice c f g => c.Passes commands ∧ f.Passes commands ∧ g.Passes commands
  | .call f args =>
    (∃ x, f.trailingName? = some x ∧ MayCall commands x args.length) ∧
      f.Passes commands ∧ args.Passes commands

/-- Every call in the arguments is of a name that may be called so. -/
def Formulas.Passes (commands : Commands) : Formulas → Prop
  | .nil => True
  | .cons f rest => f.Passes commands ∧ rest.Passes commands

end

end ExprEngine
