import ExprEngine.Proofs.Program.Folding
import ExprEngine.Proofs.Machine.Steps

/-!
# Programs without places

Every part of an expression carries the place of its text, and every instruction the place of the
part that it comes from.  They are there for listings and complaints; what a program does does not
hang on them.

* `Expr.unplaced`: an expression with all its places made one.
* `Expr.operations_unplaced`: its code has the operations that it had.
* `Machine.execute_congr`: programs with the same operations do the same.
-/

namespace ExprEngine

/-! ### Trees -/

mutual

/-- The expression with one place for all its parts. -/
def Expr.unplaced : Expr → Expr
  | .leaf l _ => .leaf l ⟨0, 0⟩
  | .fallback subject text _ _ _ => .fallback subject text ⟨0, 0⟩ ⟨0, 0⟩ ⟨0, 0⟩
  | .unary op e _ => .unary op e.unplaced ⟨0, 0⟩
  | .binary op a b _ => .binary op a.unplaced b.unplaced ⟨0, 0⟩
  | .sequence a b _ => .sequence a.unplaced b.unplaced ⟨0, 0⟩
  | .either a b _ => .either a.unplaced b.unplaced ⟨0, 0⟩
  | .both a b _ => .both a.unplaced b.unplaced ⟨0, 0⟩
  | .choice c a b _ _ => .choice c.unplaced a.unplaced b.unplaced ⟨0, 0⟩ ⟨0, 0⟩
  | .orElse c b _ => .orElse c.unplaced b.unplaced ⟨0, 0⟩
  | .call e args _ => .call e.unplaced args.unplaced ⟨0, 0⟩

/-- The arguments with one place for all their parts. -/
def Args.unplaced : Args → Args
  | .nil => .nil
  | .cons arg rest => .cons arg.unplaced rest.unplaced

end

theorem Expr.trailingName?_unplaced : ∀ e : Expr, e.unplaced.trailingName? = e.trailingName?
  | .leaf l _ => by cases l <;> rfl
  | .sequence _ e _ | .either _ e _ | .both _ e _ | .choice _ _ e _ _ | .orElse _ e _ =>
    e.trailingName?_unplaced
  | .fallback .. | .unary .. | .binary .. | .call .. => rfl

theorem Expr.unplaced_withTrailing (v : Value) :
    ∀ e : Expr, (e.withTrailing v).unplaced = e.unplaced.withTrailing v
  | .leaf .. | .fallback .. | .unary .. | .binary .. | .call .. => rfl
  | .sequence _ e _ | .either _ e _ | .both _ e _ | .choice _ _ e _ _ | .orElse _ e _ => by
    simp only [Expr.withTrailing, Expr.unplaced, e.unplaced_withTrailing v]

theorem Args.unplaced_ofList (args : List Expr) :
    (ofList args).unplaced = ofList (args.map Expr.unplaced) := by
  induction args with
  | nil => rfl
  | cons arg args ih => exact congrArg (Args.cons arg.unplaced) ih

theorem Args.length_unplaced (args : Args) : args.unplaced.length = args.length := by
  cases args with
  | nil => rfl
  | cons arg rest => exact congrArg (· + 1) rest.length_unplaced

/-! ### Code -/

/-- What code does: its operations. -/
def operations (code : List (Instr Nat)) : List (Op Nat) :=
  code.map Instr.op

@[simp] theorem operations_append (a b : List (Instr Nat)) :
    operations (a ++ b) = operations a ++ operations b :=
  List.map_append

@[simp] theorem operations_cons (i : Instr Nat) (code : List (Instr Nat)) :
    operations (i :: code) = i.op :: operations code :=
  rfl

@[simp] theorem operations_nil : operations [] = [] := rfl

@[simp] theorem operations_branch (kind : JumpKind) (target : Nat) (span : Span) :
    operations (branch kind target span) = [.jump kind target, .pop 1] :=
  rfl

theorem length_operations (code : List (Instr Nat)) : (operations code).length = code.length :=
  List.length_map _

section

variable {code more : List (Instr Nat)}

theorem length_eq_of_operations (h : operations code = operations more) :
    code.length = more.length := by
  rw [← length_operations, h, length_operations]

theorem mapM_constant?_congr (op : Operator) (h : operations code = operations more) :
    code.mapM (Instr.constant? op) = more.mapM (Instr.constant? op) := by
  have hop : ∀ code : List (Instr Nat), code.mapM (Instr.constant? op) =
      (operations code).mapM fun o => Instr.constant? op ⟨o, ⟨0, 0⟩⟩ := by
    intro code
    induction code with
    | nil => rfl
    | cons i code ih => rw [operations_cons, List.mapM_cons, List.mapM_cons, ih]; rfl
  rw [hop, hop, h]

theorem any_jumpsBehind_congr (index : Nat) (h : operations code = operations more) :
    code.any (·.jumpsBehind index) = more.any (·.jumpsBehind index) := by
  have hop : ∀ code : List (Instr Nat), code.any (·.jumpsBehind index) =
      (operations code).any fun o => o.target?.any (index < ·) := by
    intro code
    rw [operations, List.any_map]
    rfl
  rw [hop, hop, h]

/-- The folder looks at operations only. -/
theorem foldLast?_congr (op : Operator) (n : Nat) (span span' : Span) (start : Nat)
    (h : operations code = operations more) :
    (foldLast? op n span start code).map operations =
      (foldLast? op n span' start more).map operations := by
  have hl := length_eq_of_operations h
  have hdrop : ∀ k, operations (code.drop k) = operations (more.drop k) := fun k => by
    rw [operations, operations, List.map_drop, List.map_drop]
    exact congrArg (List.drop k) h
  have htake : ∀ k, operations (code.take k) = operations (more.take k) := fun k => by
    rw [operations, operations, List.map_take, List.map_take]
    exact congrArg (List.take k) h
  rw [foldLast?_eq, foldLast?_eq, hl, length_eq_of_operations (hdrop _), any_jumpsBehind_congr _ h,
    mapM_constant?_congr op (hdrop _)]
  simp only [Option.map_bind, Function.comp_def, Option.map_some, operations_append, htake,
    operations_cons, operations_nil]

theorem reduceCode_congr (fold : Bool) (op : Operator) (n : Nat) (span span' : Span) (start : Nat)
    (h : operations code = operations more) :
    operations (reduceCode fold op n span start code) =
      operations (reduceCode fold op n span' start more) := by
  have hget : ∀ (x : Option (List (Instr Nat))) (code : List (Instr Nat)),
      operations (x.getD code) = (x.map operations).getD (operations code) := by
    intro x code
    cases x <;> rfl
  cases fold with
  | false => simp [h]
  | true =>
      rw [reduceCode_true, reduceCode_true, hget, hget, foldLast?_congr op n span span' start h]
      simp [h]

end

mutual

theorem Expr.operations_unplaced (fold : Bool) : ∀ (e : Expr) (start : Nat),
    operations (e.unplaced.code fold start) = operations (e.code fold start)
  | .leaf .., _ | .fallback .., _ => rfl
  | .unary op e _, start => reduceCode_congr fold _ _ _ _ _ (e.operations_unplaced fold start)
  | .binary op a b _, start => by
    have ha := a.operations_unplaced fold start
    have hb := b.operations_unplaced fold
    rw [Expr.unplaced, Expr.code, Expr.code, length_eq_of_operations ha]
    exact reduceCode_congr fold _ _ _ _ _ (by simp [ha, hb])
  | .sequence a b _, start | .either a b _, start | .both a b _, start | .orElse a b _, start => by
    have ha := a.operations_unplaced fold start
    have hb := b.operations_unplaced fold
    have hl := length_eq_of_operations (hb (start + (a.code fold start).length + 2))
    simp [Expr.unplaced, Expr.code, length_eq_of_operations ha, ha, hb, hl]
  | .choice c a b _ _, start => by
    have hc := c.operations_unplaced fold start
    have ha := a.operations_unplaced fold
    have hb := b.operations_unplaced fold
    have hl := fun k => length_eq_of_operations (ha k)
    have hr := fun k => length_eq_of_operations (hb k)
    simp [Expr.unplaced, Expr.code, length_eq_of_operations hc, hc, ha, hb, hl, hr]
  | .call e args _, start => by
    have he := e.operations_unplaced fold start
    have ha := args.operations_unplaced fold
    simp [Expr.unplaced, Expr.code, length_eq_of_operations he, he, ha, args.length_unplaced]

theorem Args.operations_unplaced (fold : Bool) : ∀ (args : Args) (start : Nat),
    operations (args.unplaced.code fold start) = operations (args.code fold start)
  | .nil, _ => rfl
  | .cons e rest, start => by
    have he := e.operations_unplaced fold start
    have hr := rest.operations_unplaced fold
    simp [Args.unplaced, Args.code, length_eq_of_operations he, he, hr]

end

/-! ### Programs -/

/-- The program does what the other does: it has the same operations. -/
def Program.Alike (p q : Program) : Prop :=
  operations p.code.toList = operations q.code.toList

theorem Program.alike_of_unplaced {e f : Expr} (h : e.unplaced = f.unplaced) (fold : Bool)
    (source text : String) :
    Program.Alike ⟨source, (e.code fold 0).toArray⟩ ⟨text, (f.code fold 0).toArray⟩ := by
  show operations (e.code fold 0) = operations (f.code fold 0)
  rw [← e.operations_unplaced, h, f.operations_unplaced]

namespace Machine

variable {p q : Program}

theorem op_at (h : p.Alike q) (pc : Nat) : p.code[pc]?.map Instr.op = q.code[pc]?.map Instr.op := by
  have hget : ∀ p : Program, p.code[pc]?.map Instr.op = (operations p.code.toList)[pc]? := by
    intro p
    rw [operations, List.getElem?_map, Array.getElem?_toList]
  rw [hget, hget, h]

theorem runFrom_congr (evaluate : String → Eval Value) (base : Nat) (spent : Halt) (h : p.Alike q)
    (budget pc : Nat) :
    runFrom evaluate base p spent budget pc = runFrom evaluate base q spent budget pc := by
  have hsize : p.code.size = q.code.size := length_eq_of_operations h
  induction budget generalizing pc with
  | zero => rw [runFrom, runFrom, hsize]
  | succ budget ih =>
      have hop := op_at h pc
      rw [runFrom, runFrom]
      cases hp : p.code[pc]? with
      | none =>
          cases hq : q.code[pc]? with
          | none => rfl
          | some j => rw [hp, hq] at hop; cases hop
      | some i =>
          cases hq : q.code[pc]? with
          | none => rw [hp, hq] at hop; cases hop
          | some j =>
              rw [hp, hq] at hop
              have hij : i.op = j.op := Option.some.inj hop
              simp only [hij, ih]

/-- What a program does does not hang on its places. -/
theorem execute_congr (evaluate : String → Eval Value) (h : p.Alike q) :
    execute evaluate p = execute evaluate q := by
  funext m
  rw [execute_apply, execute_apply, runFrom_congr evaluate _ _ h]

end Machine

end ExprEngine
