import ExprEngine.Grammar.Parser
import ExprEngine.Program.Folding

/-!
# Code of expressions

The code of an expression leaves its value on top of the stack.  Operands come in order, and then
the operator; a branch jumps over code and pops the value that it looked at:

    left | right      left   JNZ end   POP 1   right
    left & right      left   JZ end    POP 1   right
    c ? yes : no      c   JZ else   POP 1   yes   JUMP end   else: POP 1   no
    c ?: no           c   JNZ end   POP 1   no
    first, second     first   POP 1   second

Targets are indices of the whole program, so the code of an expression depends on where it starts.
-/

namespace ExprEngine

/-- The instruction of an operand without parts. -/
def Leaf.op : Leaf → Op Nat
  | .value v => .push v
  | .param s => .pushParam s
  | .body name => .pushBody name
  | .output line => .pushOutput line

/-- The instruction of a subject that may have to give way to a default. -/
def Subject.op : Subject → Op Nat
  | .variable x => .pushVariable x
  | .param s => .pushParam s

/-- The code of an operator behind that of its operands, which starts at `start`. -/
def reduceCode (fold : Bool) (op : Operator) (n : Nat) (span : Span) (start : Nat)
    (code : List (Instr Nat)) : List (Instr Nat) :=
  let folded := if fold then foldLast? op n span start code else none
  folded.getD (code ++ [⟨.reduce op n, span⟩])

/-- A conditional jump and the removal of the value that it looked at. -/
def branch (kind : JumpKind) (target : Nat) (span : Span) : List (Instr Nat) :=
  [⟨.jump kind target, span⟩, ⟨.pop 1, span⟩]

mutual

/-- The code of an expression that starts at index `start`. -/
def Expr.code (fold : Bool) (start : Nat) : Expr → List (Instr Nat)
  | .leaf l span => [⟨l.op, span⟩]
  | .fallback subject text subjectSpan headSpan textSpan =>
    ⟨subject.op, subjectSpan⟩ :: branch .ifNonEmpty (start + 4) headSpan ++
      [⟨.push (.text text), textSpan⟩]
  | .unary op e span => reduceCode fold op.operator 1 span start (e.code fold start)
  | .binary op a b span =>
    let left := a.code fold start
    reduceCode fold op.operator 2 span start (left ++ b.code fold (start + left.length))
  | .sequence a b span =>
    let first := a.code fold start
    first ++ ⟨.pop 1, span⟩ :: b.code fold (start + first.length + 1)
  | .either a b span =>
    let left := a.code fold start
    let right := b.code fold (start + left.length + 2)
    left ++ branch .ifTrue (start + left.length + 2 + right.length) span ++ right
  | .both a b span =>
    let left := a.code fold start
    let right := b.code fold (start + left.length + 2)
    left ++ branch .ifFalse (start + left.length + 2 + right.length) span ++ right
  | .choice c a b question colon =>
    let condition := c.code fold start
    let yes := a.code fold (start + condition.length + 2)
    let otherwise := start + condition.length + 2 + yes.length + 1
    let no := b.code fold (otherwise + 1)
    condition ++ branch .ifFalse otherwise question ++ yes ++
      branch .always (otherwise + 1 + no.length) colon ++ no
  | .orElse c b question =>
    let condition := c.code fold start
    let no := b.code fold (start + condition.length + 2)
    condition ++ branch .ifTrue (start + condition.length + 2 + no.length) question ++ no
  | .call e args span =>
    let callee := e.code fold start
    callee ++ args.code fold (start + callee.length) ++ [⟨.call (args.length + 1), span⟩]

/-- The code of arguments in order. -/
def Args.code (fold : Bool) (start : Nat) : Args → List (Instr Nat)
  | .nil => []
  | .cons e rest =>
    let arg := e.code fold start
    arg ++ rest.code fold (start + arg.length)

end

/-- The program of a source, with what was remarked on the way, or why there is none. -/
def Program.compile (optimize : Bool) (commands : Grammar.Commands) (source : String) :
    Except CompileError Program × List Note :=
  let (e, notes) := Grammar.parse commands source
  (e.map fun e => ⟨source, (e.code optimize 0).toArray⟩, notes)

end ExprEngine
