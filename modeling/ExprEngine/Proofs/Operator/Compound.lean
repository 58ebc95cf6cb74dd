import ExprEngine.Proofs.Operator.Computation
import Mathlib.Data.List.Forall2

/-!
# Compound assignments

A compound assignment does what its expansion does: it computes with the operator that it is built
on, stores the value and comes to it, or it fails as the expansion fails.  Reports and failures that
name the operator name the compound one (`Diagnostic.Respelled`, `Halt.Respelled`).

There is one difference.  Where a point in time is taken from another, the compound assignment
stores a point in time and the expansion a duration (`Operator.recast`).
-/

namespace ExprEngine

/-- The same report, or one that names a compound operator instead of the one it is built on. -/
inductive Diagnostic.Respelled (op : Operator) : Diagnostic → Diagnostic → Prop
  | same (d : Diagnostic) : Respelled op d d
  | absoluteTimes : Respelled op (.absoluteTimes op.base) (.absoluteTimes op)

/-- The same reason to stop, or one that names a compound operator instead of the one it is built
on. -/
inductive Halt.Respelled (op : Operator) : Halt → Halt → Prop
  | same (h : Halt) : Respelled op h h
  | overflow : Respelled op (EvalError.arithmeticOverflow op.base).halt
    (EvalError.arithmeticOverflow op).halt

namespace Operator

/-- The compound assignments. -/
def compounds : List Operator :=
  [.addAssign, .subAssign, .mulAssign, .divAssign]

/-- The variable is assigned what the operator makes of it and the value. -/
def expansion (op : Operator) (x : String) (v : Value) : SessionM Value := do
  let w ← op.base.reduce [.name x, v]
  Operator.assign.reduce [.name x, w]

/-- What a compound assignment makes of the value of its expansion: the difference of two points in
time is taken for a point in time. -/
def recast (op : Operator) (a b : Operand) (w : Value) : Value :=
  match w.payload with
  | .time t .duration =>
    if op = .subAssign ∧ a.isAbsolute ∧ b.isAbsolute then .time t .absolute else w
  | _ => w

/-- What a compound assignment to a variable does, beside what its expansion does. -/
inductive Expanded (op : Operator) (x : String) (s : Session) (recast : Value → Value) :
    EStateM.Result Halt Session Value → EStateM.Result Halt Session Value → Prop
  | stored (w : Value) {log log' : List Diagnostic}
    (hl : List.Forall₂ (Diagnostic.Respelled op) log log') :
    Expanded op x s recast (.ok w ((s.record log).assign x w))
      (.ok (recast w) ((s.record log').assign x (recast w)))
  | halted {h h' : Halt} {log log' : List Diagnostic} (hh : h.Respelled op h')
    (hl : List.Forall₂ (Diagnostic.Respelled op) log log') :
    Expanded op x s recast (.error h (s.record log)) (.error h' (s.record log'))

variable {op : Operator}

/-- A log in which the operator may be named otherwise. -/
abbrev Relogged (op : Operator) (log log' : List Diagnostic) : Prop :=
  List.Forall₂ (Diagnostic.Respelled op) log log'

theorem relogged_refl (log : List Diagnostic) : Relogged op log log :=
  List.forall₂_same.mpr fun d _ => .same d

/-! ### Arithmetic under either name -/

theorem base_base (op : Operator) : op.base.base = op.base := by
  cases op <;> rfl

theorem warnAbsolute_pair (op : Operator) (a b : Operand) : op.warnAbsolute [a, b] =
    if a.isAbsolute && b.isAbsolute && (op.base == .add || op.base == .mul || op.base == .div) then
      Logged.report (.absoluteTimes op)
    else pure () :=
  rfl

theorem relogged_warnAbsolute (op : Operator) (a b : Operand) :
    Relogged op (op.base.warnAbsolute [a, b]).log (op.warnAbsolute [a, b]).log := by
  rw [warnAbsolute_pair, warnAbsolute_pair, base_base]
  split
  · exact .cons Diagnostic.Respelled.absoluteTimes .nil
  · exact .nil

/-- Match counts are not looked at. -/
theorem warnMatchCount_eq (ho : op ∈ compounds) (a b : Operand) :
    op.warnMatchCount [a, b] = pure () ∧ op.base.warnMatchCount [a, b] = pure () := by
  simp only [compounds, List.mem_cons, List.not_mem_nil, or_false] at ho
  rcases ho with rfl | rfl | rfl | rfl <;> exact ⟨rfl, rfl⟩

/-- Only differences of points in time are ranked by the name of the operator. -/
theorem rank_base (ho : op ∈ compounds) {a b : Operand}
    (h : ¬(op = .subAssign ∧ a.isAbsolute ∧ b.isAbsolute)) :
    op.rank [a, b] = op.base.rank [a, b] := by
  simp only [compounds, List.mem_cons, List.not_mem_nil, or_false] at ho
  rcases ho with rfl | rfl | rfl | rfl
  · rfl
  · have hn : (a.isAbsolute && b.isAbsolute) = false := by
      simpa using h
    unfold rank
    simp only [base, reduceCtorEq, decide_false, decide_true, Bool.true_and, Bool.false_and, hn]
  · rfl
  · rfl

/-- With the same rank, an operator and the one that it is built on do the same. -/
theorem arithmetic_base (ho : op ∈ compounds) {a b : Operand}
    (h : op.rank [a, b] = op.base.rank [a, b]) :
    (op.arithmetic [a, b]).value = (op.base.arithmetic [a, b]).value ∧
      Relogged op (op.base.arithmetic [a, b]).log (op.arithmetic [a, b]).log := by
  have hs : op.summed a [b] = op.base.summed a [b] := by
    simp only [summed, h, base_base]
  have ht (sum : Option Int64) : op.outcome a [b] (op.base.rank [a, b]) sum =
      op.base.outcome a [b] (op.base.rank [a, b]) sum := by
    simp only [outcome, base_base]
  obtain ⟨hw, hw'⟩ := warnMatchCount_eq ho a b
  simp only [arithmetic_cons, h, hs, ht, hw, hw']
  exact ⟨rfl, List.rel_append (relogged_warnAbsolute op a b) (relogged_refl _)⟩

theorem time_of_isAbsolute {a : Operand} (h : a.isAbsolute) : ∃ t, a.num = .time t .absolute := by
  obtain ⟨n, c⟩ := a
  cases n with
  | time t kind =>
      cases kind <;> simp [Operand.isAbsolute, Rank.of] at h
      exact ⟨t, rfl⟩
  | _ => simp [Operand.isAbsolute, Rank.of] at h

/-- The difference of two points in time, by either name, but for its kind. -/
theorem arithmetic_absolute {a b : Operand} (ha : a.isAbsolute) (hb : b.isAbsolute) :
    ∃ n : TimeKind → Num, ((∃ t, n = .time t) ∨ ∃ f, n = fun _ => .real f) ∧
      Operator.sub.arithmetic [a, b] = pure (.ok (n .duration)) ∧
      Operator.subAssign.arithmetic [a, b] = pure (.ok (n .absolute)) := by
  obtain ⟨t, ht⟩ := time_of_isAbsolute ha
  obtain ⟨u, hu⟩ := time_of_isAbsolute hb
  have hr : Operator.subAssign.rank [a, b] = .time .absolute ∧
      Operator.sub.rank [a, b] = .time .duration := by
    simp [rank, ha, hb, ht, hu, Rank.of, Rank.join, Rank.level]
  have hs : Operator.sub.summed a [b] = pure (Word.checkedSub t.sec u.sec) ∧
      Operator.subAssign.summed a [b] = pure (Word.checkedSub t.sec u.sec) := by
    simp [summed, hr, base, exactSum, ht, hu, Num.toInt]
  have hw : Operator.sub.warnAbsolute [a, b] = pure () ∧
      Operator.subAssign.warnAbsolute [a, b] = pure () := by
    simp [warnAbsolute_pair, base]
  have hm : Operator.sub.warnMatchCount [a, b] = pure () ∧
      Operator.subAssign.warnMatchCount [a, b] = pure () := ⟨rfl, rfl⟩
  simp only [arithmetic_cons, hr, hs, hw, hm, pure_bind]
  cases Word.checkedSub t.sec u.sec with
  | some w =>
      refine ⟨.time (t.sub u), .inl ⟨_, rfl⟩, ?_⟩
      simp [outcome, base, onTimes, ht, hu, Num.toTime]
  | none =>
      exact ⟨fun _ => .real (t.toReal - u.toReal), .inr ⟨_, rfl⟩, by
        simp [outcome, base, onReals, ht, hu, Num.toReal]⟩

/-! ### Results under either name -/

/-- What compound assignments make of a value, or of a failure. -/
inductive Revalued (op : Operator) (recast : Value → Value) :
    Except Halt Value → Except Halt Value → Prop
  | ok (w : Value) : Revalued op recast (.ok w) (.ok (recast w))
  | error {h h' : Halt} (hh : h.Respelled op h') : Revalued op recast (.error h) (.error h')

/-- An infinite result fails in the name of the operator. -/
theorem revalued_real (op : Operator) {recast : Value → Value} {f : Float}
    (hf : recast (.real f) = .real f) :
    Revalued op recast ((op.base.result (.real f)).mapError EvalError.halt)
      ((op.result (.real f)).mapError EvalError.halt) := by
  have hr (op : Operator) : op.result (.real f) =
      if f.isInf then .error (.arithmeticOverflow op) else .ok (.real f) := rfl
  rw [hr, hr]
  cases f.isInf with
  | true => exact .error .overflow
  | false =>
      have hk : Revalued op recast (.ok (.real f)) (.ok (recast (.real f))) := .ok _
      rwa [hf] at hk

theorem revalued_result (op : Operator) (n : Num) :
    Revalued op id ((op.base.result n).mapError EvalError.halt)
      ((op.result n).mapError EvalError.halt) := by
  cases n with
  | real f => exact revalued_real op rfl
  | _ => exact .ok _

theorem recast_eq_id {a b : Operand} (h : ¬(op = .subAssign ∧ a.isAbsolute ∧ b.isAbsolute)) :
    op.recast a b = id := by
  funext w
  unfold recast
  split
  · exact if_neg h
  · rfl

theorem log_evaluated (op : Operator) (operands : Logged (List Operand)) :
    (op.evaluated operands).log = operands.log ++ (op.arithmetic operands.value).log := by
  simp only [evaluated, Logged.log_bind, Logged.log_pure, List.append_nil]

/-- What an operator and the one that it is built on make of two operands. -/
theorem evaluated_base (ho : op ∈ compounds) {operands : Logged (List Operand)} {a b : Operand}
    (hv : operands.value = [a, b]) :
    Revalued op (op.recast a b) (op.base.evaluated operands).value (op.evaluated operands).value ∧
      Relogged op (op.base.evaluated operands).log (op.evaluated operands).log := by
  rw [value_evaluated, value_evaluated, log_evaluated, log_evaluated, hv]
  by_cases h : op = .subAssign ∧ a.isAbsolute ∧ b.isAbsolute
  · obtain ⟨rfl, ha, hb⟩ := h
    obtain ⟨n, hn, hs, ht⟩ := arithmetic_absolute ha hb
    have hc : Operator.subAssign.base = .sub := rfl
    rw [hc, hs, ht]
    refine ⟨?_, relogged_refl _⟩
    obtain ⟨t, rfl⟩ | ⟨f, rfl⟩ := hn
    · have hr : recast .subAssign a b (.time t .duration) = .time t .absolute :=
        if_pos ⟨rfl, ha, hb⟩
      have hk : Revalued .subAssign (recast .subAssign a b) (.ok (.time t .duration))
          (.ok (recast .subAssign a b (.time t .duration))) := .ok _
      rwa [hr] at hk
    · exact revalued_real .subAssign rfl
  · obtain ⟨hw, hl⟩ := arithmetic_base ho (rank_base ho h)
    rw [hw, recast_eq_id h]
    refine ⟨?_, List.rel_append (relogged_refl _) hl⟩
    cases (op.base.arithmetic [a, b]).value with
    | ok n => exact revalued_result op n
    | error e => exact .error (.same e)

/-- The operands of a compound assignment are those of the operator in its expansion. -/
theorem operands_expansion (s : Session) (x : String) (v : Value) :
    [Value.name x, v].mapM (Operand.read s) =
      (do return [← Operand.ofVariable s x, ← Operand.read s v]) := by
  simp only [List.mapM_cons, List.mapM_nil, bind_assoc, pure_bind]
  rfl

/-- An assignment of a computed value stores it. -/
theorem assign_computed {x : String} {w : Value} (h : w.name? = none) (s : Session) :
    Operator.assign.reduce [.name x, w] s = .ok w (s.assign x w) := by
  have ht : target [.name x, w] = pure x := rfl
  have hw : operand [.name x, w] 1 = pure w := rfl
  simp only [reduce, ht, hw, pure_bind, h]
  rfl

theorem made_evaluated {operands : Logged (List Operand)} {w : Value}
    (h : (op.evaluated operands).value = .ok w) : w.Made := by
  have hc := op.computed_arithmetic operands.value
  rw [value_evaluated] at h
  cases hn : (op.arithmetic operands.value).value with
  | error e => rw [hn] at h; cases h
  | ok n =>
      rw [hn] at h hc
      change (op.result n).mapError EvalError.halt = .ok w at h
      cases hr : op.result n with
      | error e => rw [hr] at h; cases h
      | ok v =>
          rw [hr] at h
          cases h
          cases hc with
          | number hn => exact made_result hn hr

/-- **A compound assignment** does what its expansion does, but for the names that are reported and
the kind of the difference of two points in time. -/
theorem compound_assignment (ho : op ∈ compounds) (x : String) (v : Value) (s : Session) :
    Expanded op x s (op.recast (Operand.ofVariable s x).value (Operand.read s v).value)
      (op.expansion x v s) (op.reduce [.name x, v] s) := by
  let operands : Session → Logged (List Operand) := fun s => do
    return [← Operand.ofVariable s x, ← Operand.read s v]
  have hd : op.reduce [.name x, v] = op.compute operands >>= store x := by
    simp only [compounds, List.mem_cons, List.not_mem_nil, or_false] at ho
    rcases ho with rfl | rfl | rfl | rfl <;> rfl
  have he : op.base.reduce [.name x, v] = op.base.compute operands := by
    have hb : op.base.reduce [.name x, v] =
        op.base.compute fun s => [Value.name x, v].mapM (Operand.read s) := by
      simp only [compounds, List.mem_cons, List.not_mem_nil, or_false] at ho
      rcases ho with rfl | rfl | rfl | rfl <;> rfl
    simp only [hb, operands_expansion, operands]
  obtain ⟨hv, hl⟩ := evaluated_base ho (show (operands s).value = [_, _] from rfl)
  have hc (w : Value) (h : (op.base.evaluated (operands s)).value = .ok w) : w.name? = none :=
    (made_evaluated h).data.name?
  rw [hd, expansion, he, Machine.bind_apply, Machine.bind_apply, compute_apply, compute_apply]
  generalize (op.base.evaluated (operands s)).value = e at hv hc
  generalize (op.evaluated (operands s)).value = e' at hv
  cases hv with
  | ok w =>
      have ha := assign_computed (x := x) (hc w rfl) (s.record (op.base.evaluated (operands s)).log)
      simp only [SessionM.emit, ha]
      exact .stored w hl
  | error hh => exact .halted hh hl

/-- A session whose variable `x` is a time. -/
def timed (t : TimePair) (kind : TimeKind) : Session :=
  ({} : Session).setGlobal "x" (.time t kind)

/-- Two seconds are taken from a duration. -/
theorem compound_assignment_fromDuration :
    Operator.subAssign.Expanded "x" (timed ⟨5, 0⟩ .duration)
      (Operator.subAssign.recast (Operand.ofVariable (timed ⟨5, 0⟩ .duration) "x").value
        (Operand.read (timed ⟨5, 0⟩ .duration) (.int 2)).value)
      (Operator.subAssign.expansion "x" (.int 2) (timed ⟨5, 0⟩ .duration))
      (Operator.subAssign.reduce [.name "x", .int 2] (timed ⟨5, 0⟩ .duration)) :=
  compound_assignment (by decide) "x" (.int 2) (timed ⟨5, 0⟩ .duration)

/-- One point in time is taken from another: a point in time is stored, and not a duration. -/
theorem absolute_difference_stored :
    Operator.subAssign.reduce [.name "x", .time ⟨10, 0⟩ .absolute] (timed ⟨12, 0⟩ .absolute) =
        .ok (.time ⟨2, 0⟩ .absolute) (timed ⟨2, 0⟩ .absolute) ∧
      Operator.subAssign.expansion "x" (.time ⟨10, 0⟩ .absolute) (timed ⟨12, 0⟩ .absolute) =
        .ok (.time ⟨2, 0⟩ .duration) (timed ⟨2, 0⟩ .duration) :=
  ⟨by with_unfolding_all rfl, by with_unfolding_all rfl⟩

end Operator

end ExprEngine
