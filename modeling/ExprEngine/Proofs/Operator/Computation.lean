import ExprEngine.Proofs.Program.Constants

/-!
# Computations

An operator that computes reads its operands, works on their numbers and checks the result.  All of
that only reports to the session (`compute_apply`), so what is left to know is the value, and that
hangs on the numbers alone: on the rank at which the operator works and on the sum that it takes
beforehand (`value_arithmetic`).
-/

namespace ExprEngine

@[simp] theorem Logged.value_map {α β : Type} (f : α → β) (x : Logged α) :
    (f <$> x).value = f x.value :=
  rfl

namespace Operator

/-- The value of an operator, or why it has none, with all reports on the way. -/
def evaluated (op : Operator) (operands : Logged (List Operand)) : Logged (Except Halt Value) := do
  return (← op.arithmetic (← operands)).bind fun n => (op.result n).mapError EvalError.halt

theorem value_evaluated (op : Operator) (operands : Logged (List Operand)) :
    (op.evaluated operands).value = (op.arithmetic operands.value).value.bind fun n =>
      (op.result n).mapError EvalError.halt :=
  rfl

theorem compute_apply (op : Operator) (operands : Session → Logged (List Operand)) (s : Session) :
    op.compute operands s =
      SessionM.emit (op.evaluated (operands s)).value (op.evaluated (operands s)).log s := by
  have hl : (op.evaluated (operands s)).log =
      (operands s).log ++ (op.arithmetic (operands s).value).log := by
    simp only [evaluated, Logged.log_bind, Logged.log_pure, List.append_nil]
  rw [compute, Machine.bind_of_ok (show SessionM.observe _ s = .ok _ _ from rfl), hl,
    value_evaluated]
  show (SessionM.ofExcept (op.arithmetic (operands s).value).value >>= _) (s.record _) = _
  cases (op.arithmetic (operands s).value).value with
  | error h => rfl
  | ok n =>
      show SessionM.ofExcept ((op.result n).mapError EvalError.halt) _ = _
      simp only [Except.bind]
      cases (op.result n).mapError EvalError.halt <;> rfl

/-- Where nothing is reported, the session stays as it is. -/
theorem compute_of_pure {op : Operator} {operands : Session → Logged (List Operand)} {s : Session}
    {xs : List Operand} {r : Except Halt Num} (hx : operands s = pure xs)
    (ha : op.arithmetic xs = pure r) :
    op.compute operands s =
      SessionM.ofExcept (r.bind fun n => (op.result n).mapError EvalError.halt) s := by
  have he : op.evaluated (operands s) =
      pure (r.bind fun n => (op.result n).mapError EvalError.halt) := by
    rw [evaluated, hx, pure_bind, ha, pure_bind]
  rw [compute_apply, he]
  show SessionM.emit (r.bind _) [] s = _
  cases r.bind fun n => (op.result n).mapError EvalError.halt with
  | ok v => exact congrArg (EStateM.Result.ok v) s.record_nil
  | error h => exact congrArg (EStateM.Result.error h) s.record_nil

/-- The sum that an operator takes beforehand: the exact one, if it is a word. -/
def summed (op : Operator) (first : Operand) (rest : List Operand) : Logged (Option Int64) :=
  if op.rank (first :: rest) ≠ .real ∧ (op.base = .add ∨ op.base = .sub) then do
    let x ← if rest.isEmpty then pure 0 else first.num.toInt
    return op.base.exactSum x (← (rest.getLastD first).num.toInt)
  else pure (some 0)

theorem arithmetic_cons (op : Operator) (first : Operand) (rest : List Operand) :
    op.arithmetic (first :: rest) = (do
      op.warnAbsolute (first :: rest)
      op.warnMatchCount (first :: rest)
      op.outcome first rest (op.rank (first :: rest)) (← op.summed first rest)) := by
  let tail := op.outcome first rest (op.rank (first :: rest))
  -- the sum is taken in either case before the rest is done
  have hd : op.arithmetic (first :: rest) = (do
      op.warnAbsolute (first :: rest)
      op.warnMatchCount (first :: rest)
      if op.rank (first :: rest) ≠ .real ∧ (op.base = .add ∨ op.base = .sub) then
        if rest.isEmpty then
          (rest.getLastD first).num.toInt >>= fun y => tail (op.base.exactSum 0 y)
        else first.num.toInt >>= fun x =>
          (rest.getLastD first).num.toInt >>= fun y => tail (op.base.exactSum x y)
      else tail (some 0)) := rfl
  rw [hd, summed]
  by_cases hs : op.rank (first :: rest) ≠ .real ∧ (op.base = .add ∨ op.base = .sub)
  · simp only [if_pos hs]
    cases rest.isEmpty <;>
      simp only [Bool.false_eq_true, if_true, if_false, pure_bind, bind_assoc] <;> rfl
  · simp only [if_neg hs, pure_bind]
    rfl

theorem value_arithmetic (op : Operator) (first : Operand) (rest : List Operand) :
    (op.arithmetic (first :: rest)).value =
      (op.outcome first rest (op.rank (first :: rest)) (op.summed first rest).value).value := by
  rw [arithmetic_cons]
  rfl

end Operator

end ExprEngine
