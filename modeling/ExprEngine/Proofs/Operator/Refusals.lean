import ExprEngine.Proofs.Operator.Computation

/-!
# Operators that fail

An operator that assigns does so last of all, so one that fails has only reported: every variable is
as it was, and none has come to be.  With the operands that it needs, an operator fails for one of
three reasons (`Operator.Refusal`): it divides by nothing, it has no variable to assign to, or the
real that it computes is infinite.

* `Operator.record_of_error`: what a failing operator leaves.
* `Operator.refuses_reduce`: why it fails.
-/

namespace ExprEngine.Operator

open SessionM

/-- Why an operator may fail that has the operands that it needs. -/
inductive Refusal (op : Operator) : Halt → Prop
  | divisionByZero : Refusal op EvalError.divisionByZero.halt
  | illegalAssignment : Refusal op EvalError.illegalAssignment.halt
  | overflow : Refusal op (EvalError.arithmeticOverflow op).halt

variable {op : Operator} {args : List Value} {s t : Session} {e : Halt}

/-- **A failing operator has only reported**, so every variable is as it was. -/
theorem record_of_error (h : op.reduce args s = .error e t) : ∃ log, t = s.record log := by
  have hr : Reduced (fun _ => True) args s (op.reduce args s) := reduces (fun _ _ => trivial) s
  rw [h] at hr
  cases hr with
  | halted hl hh => exact ⟨_, rfl⟩

/-! ### Failures -/

/-- The result is no failure, or one that the operator may have. -/
def RefusedBy (op : Operator) {α : Type} (r : Except Halt α) : Prop :=
  ∀ e, r = .error e → op.Refusal e

/-- The step fails, if at all, for a reason that the operator may have. -/
def Refuses (op : Operator) {α : Type} (x : SessionM α) : Prop :=
  ∀ s e t, x s = .error e t → op.Refusal e

namespace Refuses

variable {α β : Type}

theorem of_ok {x : SessionM α} (h : ∀ s, ∃ a t, x s = .ok a t) : op.Refuses x := by
  intro s e t he
  obtain ⟨a, u, hx⟩ := h s
  cases hx.symm.trans he

theorem bind {x : SessionM α} {f : α → SessionM β} (hx : op.Refuses x)
    (hf : ∀ a, op.Refuses (f a)) : op.Refuses (x >>= f) := by
  intro s e t he
  rw [Machine.bind_apply] at he
  cases hs : x s with
  | ok a u =>
      rw [hs] at he
      exact hf a u e t he
  | error _ _ =>
      rw [hs] at he
      cases he
      exact hx s e t hs

theorem ite {c : Prop} [Decidable c] {x y : SessionM α} (hx : op.Refuses x)
    (hy : op.Refuses y) : op.Refuses (if c then x else y) := by
  split
  · exact hx
  · exact hy

end Refuses

theorem refuses_operand {i : Nat} (hi : i < args.length) : op.Refuses (operand args i) := by
  unfold operand
  rw [List.getElem?_eq_getElem hi]
  exact .of_ok fun s => ⟨_, s, rfl⟩

theorem refuses_target (hi : 0 < args.length) : op.Refuses (target args) := by
  refine .bind (refuses_operand hi) fun v => ?_
  split
  · exact .of_ok fun s => ⟨_, s, rfl⟩
  · intro s e t he
    cases he
    exact .illegalAssignment

/-- Only integers cannot be divided by nothing. -/
theorem refusedBy_onInts (op : Operator) (sum i j : Int64) :
    op.RefusedBy ((op.base.onInts sum i j).mapError EvalError.halt) := by
  unfold onInts
  split
  · nofun
  · nofun
  · nofun
  · split
    · intro e he
      cases he
      exact .divisionByZero
    · nofun
  · nofun

theorem refusedBy_outcome {first : Operand} {rest : List Operand} (rank : Rank)
    (sum : Option Int64) (hn : (op.base = .mul ∨ op.base = .div) → rest ≠ []) :
    op.RefusedBy (op.outcome first rest rank sum).value := by
  unfold outcome
  split
  · refine Logged.value_of_bind fun _ => ?_
    split <;> exact op.refusedBy_onInts _ _ _
  · split
    · next ho =>
      split
      · nofun
      · next hr => exact absurd (List.head?_eq_none_iff.mp hr) (hn ho)
    · refine Logged.value_of_bind fun _ => ?_
      split <;> nofun
  · split <;> nofun

theorem refusedBy_arithmetic {xs : List Operand} (h1 : 0 < xs.length)
    (h2 : (op.base = .mul ∨ op.base = .div) → 2 ≤ xs.length) :
    op.RefusedBy (op.arithmetic xs).value := by
  match xs with
  | [] => exact absurd h1 (Nat.lt_irrefl 0)
  | first :: rest =>
      rw [value_arithmetic]
      refine refusedBy_outcome _ _ fun ho hr => ?_
      have := h2 ho
      simp [hr] at this

theorem refusedBy_result (n : Num) : op.RefusedBy ((op.result n).mapError EvalError.halt) := by
  unfold result
  split
  · split
    · intro e he
      cases he
      exact .overflow
    · nofun
  · nofun

theorem refuses_compute {operands : Session → Logged (List Operand)} {n : Nat}
    (hn : ∀ s, (operands s).value.length = n) (h1 : 0 < n)
    (h2 : (op.base = .mul ∨ op.base = .div) → 2 ≤ n) : op.Refuses (op.compute operands) := by
  intro s e t he
  have ha : op.RefusedBy (op.arithmetic (operands s).value).value := by
    rw [← hn s] at h1 h2
    exact refusedBy_arithmetic h1 h2
  have hv : (op.evaluated (operands s)).value = .error e := by
    rw [compute_apply] at he
    unfold emit at he
    split at he
    · cases he
    · next h =>
      cases he
      exact h
  rw [value_evaluated] at hv
  generalize (op.arithmetic (operands s).value).value = r at ha hv
  cases r with
  | error k =>
      cases hv
      exact ha e rfl
  | ok k => exact refusedBy_result k e hv

/-- **An operator that has the operands that it needs** fails for one of three reasons, if it
fails. -/
theorem refuses_reduce (ht : op.Takes args.length) : op.Refuses (op.reduce args) := by
  have first : op.Refuses (operand args 0) := refuses_operand ht.pos
  have target : op.Refuses (target args) := refuses_target ht.pos
  have second (h : 2 ≤ args.length) : op.Refuses (operand args 1) := refuses_operand h
  have hn (s : Session) := Logged.length_mapM (Operand.read s) args
  have store (x : String) (v : Value) : op.Refuses (store x v) := .of_ok fun s => ⟨_, _, rfl⟩
  cases op with
  | add | sub => exact refuses_compute hn ht.pos nofun
  | mul | div | lt | gt | le | ge | eq | ne => exact refuses_compute hn ht.pos fun _ => ht
  | addAssign | subAssign | mulAssign | divAssign =>
      exact .bind target fun x => .bind (second ht) fun v =>
        .bind (refuses_compute (n := 2) (fun s => rfl) (by decide) fun _ => Nat.le_refl 2) (store x)
  | assign =>
      refine .bind target fun x => .bind (second ht) fun v => ?_
      split
      · exact .bind (.of_ok fun s => ⟨_, s, rfl⟩) fun s => store x _
      · exact store x v
  | increment | decrement =>
      refine .bind target fun x => .bind (.of_ok fun s => ⟨_, _, rfl⟩) fun n => ?_
      exact .ite (.bind (.of_ok fun s => ⟨_, _, rfl⟩) fun _ => store x _) (store x _)
  | same | differ | like | unlike =>
      exact .bind first fun a => .bind (second ht) fun b => .of_ok fun s => ⟨_, _, rfl⟩
  | not => exact .bind first fun a => .of_ok fun s => ⟨_, _, rfl⟩

end ExprEngine.Operator
