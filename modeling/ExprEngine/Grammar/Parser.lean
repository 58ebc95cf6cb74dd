import ExprEngine.Grammar.Operand
import ExprEngine.Grammar.Precedence

/-!
# Reading expressions

One function a precedence level, each of which reads as far as its level goes.  A function calls
itself or a looser level only behind a character that it has used, and else a tighter level; so the
number of characters that are left, with the level as a tie-break, goes down with every call.
-/

namespace ExprEngine.Grammar

/-- Which commands there are. -/
abbrev Commands := String → Option Command

/-- What a call calls: a built-in function or a command, bound by its name, else what the name
refers to when the call is made. -/
inductive Callee where
  | builtin (b : Builtin)
  | command (c : Command)
  | late

/-- The callee of an expression in front of a parenthesis. -/
def resolveCallee (commands : Commands) (e : Expr) : Except CompileCause (Callee × Expr) :=
  match e.trailingName? with
  | none => .error .calleeNotName
  | some x =>
    match Builtin.find? x with
    | some b => .ok (.builtin b, e.withTrailing ⟨.function b, false⟩)
    | none =>
      match commands x with
      | some c =>
        if c.callable then .ok (.command c, e.withTrailing ⟨.command c, false⟩)
        else .error (.notFunction c.name)
      | none => .ok (.late, e)

/-- Why a callee does not take so many arguments. -/
def Callee.countError? (n : Nat) : Callee → Option CompileCause
  | .builtin b => if b.accepts n then none else some (.argumentCount b n)
  | .command c => if n ≤ 1 then none else some (.commandArgumentCount c.name)
  | .late => none

mutual

/-- Assignments with commas between them. -/
def sequence (commands : Commands) (c : Cursor) : Except Rejection (Parsed Expr c) := do
  let ⟨first, d, hd⟩ ← assignment commands c
  return (← sequenceTail commands first d).since hd
termination_by 32 * c.rest.length + 22

/-- The commas and assignments that follow one. -/
def sequenceTail (commands : Commands) (first : Expr) (c : Cursor) :
    Except Rejection (Parsed Expr c) := do
  match c.eat? ',' with
  | none => return ⟨first, c, Nat.le_refl _⟩
  | some ⟨d, hd⟩ =>
    let ⟨second, next, hn⟩ ← assignment commands d
    return (← sequenceTail commands (.sequence first second (c.spanTo d)) next).since (by omega)
termination_by 32 * c.rest.length + 21

/-- A conditional, or an assignment of what follows to it. -/
def assignment (commands : Commands) (c : Cursor) : Except Rejection (Parsed Expr c) := do
  let ⟨left, d, hd⟩ ← conditional commands c
  match d.read? assignment? with
  | none => return ⟨left, d, hd⟩
  | some (op, ⟨e, he⟩) =>
    let ⟨right, next, hn⟩ ← assignment commands e
    return ⟨.binary op left right (d.spanTo e), next, by omega⟩
termination_by 32 * c.rest.length + 20

/-- A disjunction, or a choice that it decides. -/
def conditional (commands : Commands) (c : Cursor) : Except Rejection (Parsed Expr c) := do
  let ⟨condition, d, hd⟩ ← chain commands .disjunction c
  match d.eat? '?' with
  | none => return ⟨condition, d, hd⟩
  | some ⟨e, he⟩ =>
    let question := d.spanTo e
    let ⟨yesStart, hy⟩ := e.pastBlanks
    match yesStart.eat? ':' with
    | some ⟨noStart, hs⟩ =>
      let ⟨no, next, hn⟩ ← conditional commands noStart
      return ⟨.orElse condition no question, next, by omega⟩
    | none =>
      let ⟨yes, colon, hc⟩ ← sequence commands yesStart
      match colon.eat? ':' with
      | none => colon.unexpected .elseBranch
      | some ⟨noStart, hs⟩ =>
        let ⟨no, next, hn⟩ ← conditional commands noStart
        return ⟨.choice condition yes no question (colon.spanTo noStart), next, by omega⟩
termination_by 32 * c.rest.length + 19
decreasing_by
  all_goals
    have : Level.disjunction.rank = 4 := rfl
    omega

/-- Operands of a level, joined from the left. -/
def chain (commands : Commands) (l : Level) (c : Cursor) : Except Rejection (Parsed Expr c) := do
  let ⟨left, d, hd⟩ ← operand commands l false c
  return (← chainTail commands l left d).since hd
termination_by 32 * c.rest.length + 3 * l.rank + 5

/-- The operators and operands of a level that follow an operand. -/
def chainTail (commands : Commands) (l : Level) (left : Expr) (c : Cursor) :
    Except Rejection (Parsed Expr c) := do
  match c.read? l.joiner? with
  | none => return ⟨left, c, Nat.le_refl _⟩
  | some (j, ⟨d, hd⟩) =>
    let ⟨right, next, hn⟩ ← operand commands l (j == .binary .div) d
    return (← chainTail commands l (j.build left right (c.spanTo d)) next).since (by omega)
termination_by 32 * c.rest.length + 3 * l.rank + 4

/-- An operand of a level, which may stand behind a slash. -/
def operand (commands : Commands) (l : Level) (slash : Bool) (c : Cursor) :
    Except Rejection (Parsed Expr c) :=
  match _h : l.tighter? with
  | none => unary commands slash c
  | some m => chain commands m c
termination_by 32 * c.rest.length + 3 * l.rank + 3
decreasing_by
  · omega
  · have := Level.rank_of_tighter? _h
    omega

/-- A primary operand or a call, with operators in front. -/
def unary (commands : Commands) (slash : Bool) (c : Cursor) : Except Rejection (Parsed Expr c) := do
  let ⟨start, hs⟩ := c.pastBlanks
  match start.read? unary? with
  | some (op, ⟨d, hd⟩) =>
    let ⟨e, next, hn⟩ ← unary commands false d
    return ⟨.unary op e (start.spanTo d), next, by omega⟩
  | none =>
    let ⟨e, d, hd⟩ ← primary commands (slash && start.pos == c.pos) start
    match d.eat? '(' with
    | none => return ⟨e, d, by omega⟩
    | some ⟨inside, hi⟩ =>
      match resolveCallee commands e with
      | .error cause => d.refuse cause (d.spanTo d)
      | .ok (callee, e) =>
        let ⟨args, close, hc⟩ ← arguments commands inside
        match callee.countError? args.length with
        | some cause => close.refuse cause (d.spanTo close)
        | none =>
          let ⟨stop, hp⟩ := (close.advance 1).pastBlanks
          have := close.length_advance 1
          return ⟨.call e (.ofList args) (d.spanTo stop), stop, by omega⟩
termination_by 32 * c.rest.length + 2

/-- The arguments behind an opening parenthesis, up to the closing one. -/
def arguments (commands : Commands) (c : Cursor) : Except Rejection (Parsed (List Expr) c) := do
  let ⟨start, hs⟩ := c.pastBlanks
  if start.peek? = some ')' then return ⟨[], start, hs⟩
  else return (← argumentTail commands start).since hs
termination_by 32 * c.rest.length + 22

/-- An argument and those that follow it. -/
def argumentTail (commands : Commands) (c : Cursor) : Except Rejection (Parsed (List Expr) c) := do
  let ⟨arg, d, hd⟩ ← assignment commands c
  if d.peek? = some ')' then return ⟨[arg], d, hd⟩
  else match d.eat? ',' with
    | none => d.unexpected .argumentEnd
    | some ⟨e, he⟩ =>
      let ⟨args, next, hn⟩ ← argumentTail commands e
      return ⟨arg :: args, next, by omega⟩
termination_by 32 * c.rest.length + 21

/-- A primary operand, and the blanks behind it. -/
def primary (commands : Commands) (slash : Bool) (c : Cursor) : Except Rejection (Parsed Expr c) := do
  let ⟨e, d, hd⟩ ← bare commands slash c
  let ⟨next, hn⟩ := d.pastBlanks
  return ⟨e, next, by omega⟩
termination_by 32 * c.rest.length + 1

/-- A primary operand. -/
def bare (commands : Commands) (slash : Bool) (c : Cursor) : Except Rejection (Parsed Expr c) := do
  if startsNumber c.rest then number c
  else match c.peek? with
    | some '{' => substitution c
    | some '%' => return (← percentSubstitution (c.advance 1)).since (by simp)
    | some '$' =>
      match c.eat? '$' with
      | none => c.unexpected .operand
      | some ⟨d, hd⟩ =>
        match d.eat? '[', d.eat? '(' with
        | some ⟨inside, hi⟩, _ =>
          let ⟨start, hs⟩ := (inside.note .bracketed).pastBlanks
          have : (inside.note .bracketed).rest.length = inside.rest.length := rfl
          let ⟨e, close, hc⟩ ← sequence commands start
          if close.rest.isEmpty then close.refuse .unclosedExpression (c.spanTo close)
          else match close.eat? ']' with
            | none => close.unexpected .closingBracket
            | some ⟨stop, hs⟩ => return ⟨e, stop, by omega⟩
        | none, some ⟨inside, hi⟩ => return (← output c inside).since (by omega)
        | none, none => return (← body c d).since (by omega)
    | some '(' =>
      match c.eat? '(' with
      | none => c.unexpected .operand
      | some ⟨inside, hi⟩ =>
        let ⟨e, close, hc⟩ ← sequence commands inside
        match close.eat? ')' with
        | none => close.unexpected .closingParenthesis
        | some ⟨stop, hs⟩ => return ⟨e, stop, by omega⟩
    | some ch =>
      if Ascii.isQuote ch then quoted ch c
      else if Ascii.isWordStart ch then return name slash c
      else c.unexpected .operand
    | none => c.unexpected .operand
termination_by 32 * c.rest.length

end

/-- The expression that a source is, with what was remarked on the way, or why it is none. -/
def parse (commands : Commands) (source : String) : Except CompileError Expr × List Note :=
  let whole : Except Rejection (Expr × List Note) := do
    let ⟨e, stop, _⟩ ← sequence commands (.ofString source)
    if stop.rest.isEmpty then return (e, stop.notes) else stop.unexpected .endOfExpression
  match whole with
  | .ok (e, notes) => (.ok e, notes.reverse)
  | .error r => (.error r.error, r.notes.reverse)

end ExprEngine.Grammar
