import ExprEngine.Value.View

/-!
# Arithmetic and comparison

Operands are promoted to the highest rank among them: integers below decimals below durations below
points in time below reals.  A sum or difference whose integers, or seconds, are no word is computed
on reals instead.

| rank    | `+` `-`              | `*`                               | `/`                       |
|---------|----------------------|-----------------------------------|---------------------------|
| integer | exact                | exact, or real if that differs    | toward zero               |
| time    | pairs of that kind   | real                              | real                      |
| real    | real                 | real                              | real                      |

The difference of two points in time is a duration.
-/

namespace ExprEngine

/-- The rank of a number. -/
inductive Rank where
  | int
  | time (kind : TimeKind)
  | real
deriving DecidableEq

namespace Rank

/-- The ranks in ascending order. -/
def level : Rank → Nat
  | int => 0
  | time .decimal => 1
  | time .duration => 2
  | time .absolute => 3
  | real => 4

/-- The higher of two ranks. -/
def join (a b : Rank) : Rank :=
  if a.level < b.level then b else a

/-- The rank of a number. -/
def of : Num → Rank
  | .int _ => int
  | .time _ kind => time kind
  | .real _ => real

end Rank

/-- A number to compute with, and whether it is a match count. -/
structure Operand where
  num : Num
  matchCount : Bool := false

namespace Operand

/-- The operand is a point in time. -/
def isAbsolute (a : Operand) : Bool :=
  Rank.of a.num = .time .absolute

/-- Integer zero, which stands for whatever is no number. -/
def zero : Operand := ⟨.int 0, false⟩

/-- The operand that a value is in a session. -/
def ofValue (s : Session) (v : Value) : Logged Operand := do
  return ⟨(← s.number v).getD (.int 0), v.matchCount⟩

/-- The operand that a variable is. -/
def ofVariable (s : Session) (x : String) : Logged Operand :=
  match s.lookup x with
  | some v => ofValue s v
  | none => pure zero

/-- The operand that a value is, read through it if it is a reference. -/
def read (s : Session) (v : Value) : Logged Operand :=
  match v.name? with
  | some x => ofVariable s x
  | none => ofValue s v

end Operand

namespace Operator

/-- The comparison holds for operands that are in this order. -/
def holds (op : Operator) (o : Ordering) : Bool :=
  match op with
  | .lt => o == .lt
  | .gt => o == .gt
  | .le => o != .gt
  | .ge => o != .lt
  | .eq => o == .eq
  | .ne => o != .eq
  | _ => false

/-- The truth of a statement as a number. -/
def truthNum (b : Bool) : Num := .int (if b then 1 else 0)

/-- The exact sum or difference of two words, if it is a word. -/
def exactSum (op : Operator) (x y : Int64) : Option Int64 :=
  if op = .sub then Word.checkedSub x y else Word.checkedAdd x y

/-- The product of two integers: the word, where its real is the product of the reals, and that
product otherwise. -/
def product (x y : Int64) : Num :=
  let exact := Binary.ofWord x * Binary.ofWord y
  if Binary.ofWord (x * y) == exact then .int (x * y) else .real exact

/-- An operator on integers; for a sum the word is known. -/
def onInts (op : Operator) (sum x y : Int64) : Except EvalError Num :=
  match op with
  | .add | .sub => .ok (.int sum)
  | .mul => .ok (product x y)
  | .div => if y = 0 then .error .divisionByZero else .ok (.int (x / y))
  | cmp => .ok (truthNum (cmp.holds (Word.order x y)))

/-- An operator on times, where no product or quotient is asked for. -/
def onTimes (op : Operator) (kind : TimeKind) (t u : TimePair) : Num :=
  match op with
  | .add => .time (t.add u) kind
  | .sub => .time (t.sub u) kind
  | cmp => truthNum (cmp.holds (t.sub u).sign)

/-- An operator on two reals. -/
def onReals (op : Operator) (f g : Float) : Num :=
  match op with
  | .add => .real (f + g)
  | .sub => .real (f - g)
  | .mul => .real (f * g)
  | .div => .real (f / g)
  | .lt => truthNum (f < g)
  | .gt => truthNum (g < f)
  | .le => truthNum (f ≤ g)
  | .ge => truthNum (g ≤ f)
  | .eq => truthNum (f == g)
  | _ => truthNum (!(f == g))

/-- An operator on one real. -/
def onReal (op : Operator) (f : Float) : Num :=
  match op with
  | .add => .real f
  | .sub => .real (-f)
  | _ => op.onReals f 0.0

/-- Warnings about points in time where the operator makes no sense of them. -/
def warnAbsolute (op : Operator) (operands : List Operand) : Logged Unit :=
  match operands with
  | [a, b] =>
    if a.isAbsolute && b.isAbsolute && (op.base == .add || op.base == .mul || op.base == .div) then
      Logged.report (.absoluteTimes op)
    else pure ()
  | [a] => if a.isAbsolute && op == .sub then Logged.report .absoluteTimeNegated else pure ()
  | _ => pure ()

/-- A warning about a match count compared with one or with another match count: a match may count
more than one. -/
def warnMatchCount (op : Operator) (operands : List Operand) : Logged Unit := do
  match operands with
  | [a, b] =>
    if (op == .eq || op == .ne) && (a.matchCount || b.matchCount) then
      let isOne (counted : Bool) (n : Num) : Logged Bool :=
        if counted then return (← n.toInt) == 1 else return false
      let withOne ← do
        if ← isOne a.matchCount b.num then pure true else isOne b.matchCount a.num
      if withOne || (a.matchCount && b.matchCount) then Logged.report .matchCountCompared
  | _ => return ()

/-- The rank at which an operator works. -/
def rank (op : Operator) (operands : List Operand) : Rank :=
  let highest := operands.foldl (fun r a => r.join (Rank.of a.num)) .int
  match operands with
  | [a, b] => if op = .sub && a.isAbsolute && b.isAbsolute then .time .duration else highest
  | _ => highest

/-- An operator on numbers, the deepest operand first.  Sums look at the first and the last operand,
all else at the first two. -/
def arithmetic (op : Operator) (operands : List Operand) : Logged (Except Halt Num) := do
  let base := op.base
  match operands with
  | [] =>
    return .error (.fault (if base = .add ∨ base = .sub then .noOperand else .missingOperand 0 0))
  | first :: rest =>
    op.warnAbsolute operands
    op.warnMatchCount operands
    let last := rest.getLastD first
    let rank := op.rank operands
    let sum ←
      if rank ≠ .real ∧ (base = .add ∨ base = .sub) then do
        let x ← if rest.isEmpty then pure 0 else first.num.toInt
        pure (exactSum base x (← last.num.toInt))
      else pure (some 0)
    match rank, sum with
    | .int, some sum =>
      let x ← first.num.toInt
      let y ← match rest.head? with
        | some b => b.num.toInt
        | none => pure 0
      return (base.onInts sum x y).mapError EvalError.halt
    | .time kind, some _ =>
      if base = .mul ∨ base = .div then
        match rest.head? with
        | some b => return .ok (base.onReals first.num.toReal b.num.toReal)
        | none => return .error (.fault (.missingOperand 1 1))
      else
        let u ← last.num.toTime
        let t ← if rest.isEmpty then pure .zero else first.num.toTime
        return .ok (base.onTimes kind t u)
    | _, _ =>
      match rest.head? with
      | some b => return .ok (base.onReals first.num.toReal b.num.toReal)
      | none => return .ok (base.onReal first.num.toReal)

/-- The value of a result, which must not be infinite. -/
def result (op : Operator) : Num → Except EvalError Value
  | .real f => if f.isInf then .error (.arithmeticOverflow op) else .ok (.real f)
  | n => .ok n.toValue

end Operator

end ExprEngine
