import ExprEngine.Proofs.Machine.Steps
import ExprEngine.Proofs.Program.Blocks

/-!
# Runs along expressions

The run of the code of an expression goes along the expression: through its operands in order, and
through or around the operands that a branch decides on.  `Expr.run` says so without indices and
jump targets; what it comes to is the number of instructions that are left.

* `Machine.runOp_push_succ`, `Machine.runOp_reduce_succ`: what a push and an operator come to.
* `Expr.runFrom_code`: where the code of an expression stands in a program, a run goes along the
  expression and then on behind the code.
-/

namespace ExprEngine.Machine

variable {α : Type} (evaluate : String → Eval Value) (base : Nat) (spent : Halt)

/-- An operation that does not jump, if an instruction is left. -/
def runOp (op : Op Nat) : (budget : Nat) → Eval Nat
  | 0 => throw spent
  | budget + 1 => do
    let _ ← step evaluate base op
    return budget

/-- Whether a jump is taken, if an instruction is left. -/
def runJump (kind : JumpKind) : (budget : Nat) → Eval (Bool × Nat)
  | 0 => throw spent
  | budget + 1 => do return (← jumps kind base, budget)

/-- A branch around something, which takes the place of the value that the branch looked at. -/
def runBranch (kind : JumpKind) (x : Nat → Eval Nat) (budget : Nat) : Eval Nat := do
  let (taken, budget) ← runJump base spent kind budget
  if taken then return budget
  else
    let budget ← runOp evaluate base spent (.pop 1) budget
    x budget

/-- One of two things, in the place of the value that decides. -/
def runChoice (yes no : Nat → Eval Nat) (budget : Nat) : Eval Nat := do
  let (taken, budget) ← runJump base spent .ifFalse budget
  let budget ← runOp evaluate base spent (.pop 1) budget
  if taken then no budget
  else
    let budget ← yes budget
    let (_, budget) ← runJump base spent .always budget
    return budget

/-! ### Jumps -/

/-- What a branch decides from the value that it looks at. -/
def decided (v : Value) : JumpKind → Eval Bool
  | .always => return true
  | .ifFalse => do return !(← observe (·.truth v))
  | .ifTrue => observe (·.truth v)
  | .ifNonEmpty => return !v.isBlank

theorem decided_mild (v : Value) (kind : JumpKind) : Mild (decided v kind) := by
  cases kind with
  | always => exact .pure _
  | ifFalse => exact .bind (.observe _) fun _ => .pure _
  | ifTrue => exact .observe _
  | ifNonEmpty => exact .pure _

/-- A jump looks at the top of the stack, if that is above the height. -/
theorem jumps_of_stack {m : Machine} {v : Value} {rest : List Value} (hm : m.stack = v :: rest)
    (hb : base ≤ rest.length) (kind : JumpKind) : jumps kind base m = decided v kind m := by
  have ht : top base m = .ok v m := by
    rw [top_apply, hm]
    simp only [hb, if_true]
  cases kind with
  | always => rfl
  | _ => exact bind_of_ok ht _

end ExprEngine.Machine

namespace ExprEngine

open Machine

/-! ### Runs -/

section

variable (evaluate : String → Eval Value) (base : Nat) (spent : Halt)

mutual

/-- The run along an expression. -/
def Expr.run : Expr → (budget : Nat) → Eval Nat
  | .leaf l _, budget => runOp evaluate base spent l.op budget
  | .fallback subject text _ _ _, budget => do
    let budget ← runOp evaluate base spent subject.op budget
    runBranch evaluate base spent .ifNonEmpty
      (runOp evaluate base spent (.push (.text text))) budget
  | .unary op e _, budget => do
    let budget ← e.run budget
    runOp evaluate base spent (.reduce op.operator 1) budget
  | .binary op a b _, budget => do
    let budget ← a.run budget
    let budget ← b.run budget
    runOp evaluate base spent (.reduce op.operator 2) budget
  | .sequence a b _, budget => do
    let budget ← a.run budget
    let budget ← runOp evaluate base spent (.pop 1) budget
    b.run budget
  | .either a b _, budget => do
    let budget ← a.run budget
    runBranch evaluate base spent .ifTrue b.run budget
  | .both a b _, budget => do
    let budget ← a.run budget
    runBranch evaluate base spent .ifFalse b.run budget
  | .choice c a b _ _, budget => do
    let budget ← c.run budget
    runChoice evaluate base spent a.run b.run budget
  | .orElse c b _, budget => do
    let budget ← c.run budget
    runBranch evaluate base spent .ifTrue b.run budget
  | .call e args _, budget => do
    let budget ← e.run budget
    let budget ← args.run budget
    runOp evaluate base spent (.call (args.length + 1)) budget

/-- The run along arguments. -/
def Args.run : Args → (budget : Nat) → Eval Nat
  | .nil, budget => return budget
  | .cons e rest, budget => do
    let budget ← e.run budget
    rest.run budget

end

end

/-- The code stands in the program from index `start` on. -/
abbrev Placed (p : Program) (start : Nat) (code : List (Instr Nat)) : Prop :=
  Each (fun k i => p.code[k]? = some i) start code

variable {α : Type} {evaluate : String → Eval Value} {base : Nat} {spent : Halt} {p : Program}

/-- A step that does not jump goes on behind itself. -/
theorem Machine.step_bind {op : Op Nat} (ht : op.target? = none) (f : Option Nat → Eval α) :
    (step evaluate base op >>= f) = step evaluate base op >>= fun _ => f none := by
  cases op with
  | jump kind t => cases ht
  | pushBody name =>
      simp only [step, bind_assoc]
      refine bind_congr fun s => ?_
      split <;> simp only [bind_assoc, pure_bind]
  | _ => simp only [step, bind_assoc, pure_bind]

/-- A value is pushed if there is room for it. -/
theorem Machine.runOp_push_succ (v : Value) (budget : Nat) (m : Machine) :
    runOp evaluate base spent (.push v) (budget + 1) m =
      if m.settings.stackSize ≤ m.stack.length then .error EvalError.stackOverflow.halt m
      else .ok budget { m with stack := v :: m.stack } := by
  have hs : runOp evaluate base spent (.push v) (budget + 1) = push v >>= fun _ => pure budget := by
    simp only [runOp, step, bind_assoc, pure_bind]
  rw [hs, bind_apply, push_apply]
  by_cases hm : m.settings.stackSize ≤ m.stack.length
  · rw [if_pos hm, if_pos hm]
  · rw [if_neg hm, if_neg hm]
    rfl

/-- An operator takes the place of its operands, for whose value there is room. -/
theorem Machine.runOp_reduce_succ {m : Machine} {vs rest : List Value} {n : Nat}
    (hm : m.stack = vs.reverse ++ rest) (hn : vs.length = n) (hb : base ≤ rest.length)
    (hr : rest.length < m.settings.stackSize) (op : Operator) (budget : Nat) :
    runOp evaluate base spent (.reduce op n) (budget + 1) m =
      match op.reduce vs m.session with
      | .ok u s => .ok budget { m with stack := u :: rest, session := s }
      | .error h s => .error h { m with stack := rest, session := s } := by
  subst hn
  have hp : popMany base vs.length m = .ok vs { m with stack := rest } := by
    rw [popMany_apply, hm, if_neg (by simp; omega), ← List.length_reverse, List.take_left,
      List.drop_left, List.reverse_reverse]
  have hs : runOp evaluate base spent (.reduce op vs.length) (budget + 1) =
      popMany base vs.length >>= fun vs => inSession (op.reduce vs) >>= fun u => push u >>= fun _ =>
        pure budget := by
    simp only [runOp, step, bind_assoc, pure_bind]
  rw [hs, bind_of_ok hp, bind_apply, inSession]
  cases op.reduce vs m.session with
  | error h s => rfl
  | ok u s =>
      dsimp only
      rw [bind_apply, push_apply, if_neg (Nat.not_le_of_lt hr)]
      rfl

theorem runFrom_op {k : Nat} {op : Op Nat} {span : Span} (hi : p.code[k]? = some ⟨op, span⟩)
    (ht : op.target? = none) (budget : Nat) :
    runFrom evaluate base p spent budget k =
      runOp evaluate base spent op budget >>= fun budget =>
        runFrom evaluate base p spent budget (k + 1) := by
  cases budget with
  | zero =>
      obtain ⟨hk, -⟩ := Array.getElem?_eq_some_iff.mp hi
      rw [runFrom, if_pos hk]
      rfl
  | succ budget =>
      rw [runFrom, hi, runOp]
      simp only [step_bind ht, bind_assoc, pure_bind, Option.getD_none]

theorem runFrom_jump {k t : Nat} {kind : JumpKind} {span : Span}
    (hi : p.code[k]? = some ⟨.jump kind t, span⟩) (budget : Nat) :
    runFrom evaluate base p spent budget k =
      runJump base spent kind budget >>= fun (taken, budget) =>
        runFrom evaluate base p spent budget (if taken then t else k + 1) := by
  cases budget with
  | zero =>
      obtain ⟨hk, -⟩ := Array.getElem?_eq_some_iff.mp hi
      rw [runFrom, if_pos hk]
      rfl
  | succ budget =>
      rw [runFrom, hi, runJump]
      simp only [step, bind_assoc, pure_bind]
      refine bind_congr fun taken => ?_
      cases taken <;> rfl

/-- A branch around code along which a run goes as `x`. -/
theorem runFrom_branch {start t : Nat} {kind : JumpKind} {span : Span}
    (hp : Placed p start (branch kind t span)) {x : Nat → Eval Nat}
    (hx : ∀ budget, runFrom evaluate base p spent budget (start + 2) =
      x budget >>= fun budget => runFrom evaluate base p spent budget t) (budget : Nat) :
    runFrom evaluate base p spent budget start =
      runBranch evaluate base spent kind x budget >>= fun budget =>
        runFrom evaluate base p spent budget t := by
  obtain ⟨hj, hd, -⟩ := hp
  rw [runFrom_jump hj, runBranch, bind_assoc]
  refine bind_congr fun (taken, budget) => ?_
  cases taken with
  | true => simp only [if_true, pure_bind]
  | false =>
      simp only [Bool.false_eq_true, if_false, bind_assoc]
      rw [runFrom_op hd rfl]
      exact bind_congr hx

/-- A choice between code along which a run goes as `yes`, and code along which it goes as `no`. -/
theorem runFrom_choice {start middle stop : Nat} {question colon : Span}
    (hj : Placed p start (branch .ifFalse (middle + 1) question))
    (hk : Placed p middle (branch .always stop colon)) {yes no : Nat → Eval Nat}
    (hyes : ∀ budget, runFrom evaluate base p spent budget (start + 2) =
      yes budget >>= fun budget => runFrom evaluate base p spent budget middle)
    (hno : ∀ budget, runFrom evaluate base p spent budget (middle + 2) =
      no budget >>= fun budget => runFrom evaluate base p spent budget stop) (budget : Nat) :
    runFrom evaluate base p spent budget start =
      runChoice evaluate base spent yes no budget >>= fun budget =>
        runFrom evaluate base p spent budget stop := by
  obtain ⟨hj, hd, -⟩ := hj
  obtain ⟨hk, hd', -⟩ := hk
  -- the jump around the second operand leads to the end in any case
  have always (budget : Nat) : runFrom evaluate base p spent budget middle =
      runJump base spent .always budget >>= fun (_, budget) =>
        runFrom evaluate base p spent budget stop := by
    rw [runFrom_jump hk]
    cases budget <;> rfl
  rw [runFrom_jump hj, runChoice, bind_assoc]
  refine bind_congr fun (taken, budget) => ?_
  cases taken with
  | true =>
      simp only [if_true, bind_assoc]
      rw [runFrom_op hd' rfl]
      exact bind_congr hno
  | false =>
      simp only [Bool.false_eq_true, if_false, bind_assoc, pure_bind]
      rw [runFrom_op hd rfl]
      refine bind_congr fun budget => ?_
      rw [hyes]
      exact bind_congr always

mutual

/-- **Runs go along expressions.** -/
theorem Expr.runFrom_code (e : Expr) {start : Nat} (hp : Placed p start (e.code false start))
    (budget : Nat) :
    runFrom evaluate base p spent budget start =
      e.run evaluate base spent budget >>= fun budget =>
        runFrom evaluate base p spent budget (start + (e.code false start).length) := by
  match e with
  | .leaf l span => exact runFrom_op hp.1 (by cases l <;> rfl) budget
  | .fallback subject text subjectSpan headSpan textSpan =>
      -- a subject, and a branch around the text that may take its place
      have hp : Placed p start ([⟨subject.op, subjectSpan⟩] ++
        (branch .ifNonEmpty (start + 4) headSpan ++ [⟨.push (.text text), textSpan⟩])) := hp
      obtain ⟨hs, hb⟩ := Each.append_iff.mp hp
      obtain ⟨hj, ht⟩ := Each.append_iff.mp hb
      rw [runFrom_op hs.1 (by cases subject <;> rfl), Expr.run, bind_assoc]
      exact bind_congr fun budget => runFrom_branch hj (runFrom_op ht.1 rfl) budget
  | .unary op e span =>
      obtain ⟨he, hr⟩ := Each.append_iff.mp hp
      rw [e.runFrom_code he, Expr.run, bind_assoc]
      refine bind_congr fun budget => ?_
      rw [runFrom_op hr.1 rfl, Expr.code, reduceCode_false, List.length_append, ← Nat.add_assoc]
      rfl
  | .binary op a b span =>
      obtain ⟨hab, hr⟩ := Each.append_iff.mp hp
      obtain ⟨ha, hb⟩ := Each.append_iff.mp hab
      rw [a.runFrom_code ha, Expr.run, bind_assoc]
      refine bind_congr fun budget => ?_
      rw [b.runFrom_code hb, bind_assoc]
      refine bind_congr fun budget => ?_
      rw [List.length_append, ← Nat.add_assoc] at hr
      rw [runFrom_op hr.1 rfl, Expr.code, reduceCode_false, List.length_append, List.length_append,
        ← Nat.add_assoc, ← Nat.add_assoc]
      rfl
  | .sequence a b span =>
      obtain ⟨ha, hd, hb⟩ := Each.append_iff.mp hp
      rw [a.runFrom_code ha, Expr.run, bind_assoc]
      refine bind_congr fun budget => ?_
      rw [runFrom_op hd rfl, bind_assoc]
      refine bind_congr fun budget => ?_
      rw [b.runFrom_code hb, Expr.code, List.length_append, List.length_cons, Nat.add_right_comm,
        ← Nat.add_assoc, ← Nat.add_assoc, Nat.add_right_comm]
  | .either a b span | .both a b span | .orElse a b span =>
      obtain ⟨hab, hb⟩ := Each.append_iff.mp hp
      obtain ⟨ha, hj⟩ := Each.append_iff.mp hab
      rw [List.length_append, length_branch, ← Nat.add_assoc] at hb
      rw [a.runFrom_code ha, Expr.run, bind_assoc]
      refine bind_congr fun budget => ?_
      refine (runFrom_branch hj (b.runFrom_code hb) budget).trans ?_
      simp only [Expr.code, length_branch, List.length_append, ← Nat.add_assoc]
  | .choice c a b question colon =>
      obtain ⟨h4, hb⟩ := Each.append_iff.mp hp
      obtain ⟨h3, hk⟩ := Each.append_iff.mp h4
      obtain ⟨h2, ha⟩ := Each.append_iff.mp h3
      obtain ⟨hc, hj⟩ := Each.append_iff.mp h2
      simp only [length_branch, List.length_append, ← Nat.add_assoc] at ha hk hb
      rw [c.runFrom_code hc, Expr.run, bind_assoc]
      refine bind_congr fun budget => ?_
      refine (runFrom_choice hj hk (a.runFrom_code ha) (b.runFrom_code hb) budget).trans ?_
      simp only [Expr.code, length_branch, List.length_append, ← Nat.add_assoc]
  | .call e args span =>
      obtain ⟨hea, hr⟩ := Each.append_iff.mp hp
      obtain ⟨he, ha⟩ := Each.append_iff.mp hea
      rw [e.runFrom_code he, Expr.run, bind_assoc]
      refine bind_congr fun budget => ?_
      rw [args.runFrom_code ha, bind_assoc]
      refine bind_congr fun budget => ?_
      rw [List.length_append, ← Nat.add_assoc] at hr
      rw [runFrom_op hr.1 rfl, Expr.code, List.length_append, List.length_append, ← Nat.add_assoc,
        ← Nat.add_assoc]
      rfl

theorem Args.runFrom_code (args : Args) {start : Nat} (hp : Placed p start (args.code false start))
    (budget : Nat) :
    runFrom evaluate base p spent budget start =
      args.run evaluate base spent budget >>= fun budget =>
        runFrom evaluate base p spent budget (start + (args.code false start).length) := by
  match args with
  | .nil => rw [Args.run, pure_bind]; rfl
  | .cons e rest =>
      obtain ⟨he, hr⟩ := Each.append_iff.mp hp
      rw [e.runFrom_code he, Args.run, bind_assoc]
      refine bind_congr fun budget => ?_
      rw [rest.runFrom_code hr, Args.code, List.length_append, ← Nat.add_assoc]

end

/-- The run of a program that is the code of an expression. -/
theorem Expr.runFrom_program (e : Expr) (hp : p.code = (e.code false 0).toArray) (budget : Nat) :
    runFrom evaluate base p spent budget 0 =
      e.run evaluate base spent budget >>= fun _ => pure () := by
  have placed : Placed p 0 (e.code false 0) := by
    refine .of_get fun k i hi => ?_
    rw [hp, Nat.zero_add, List.getElem?_toArray, hi]
  rw [e.runFrom_code placed]
  refine bind_congr fun budget => ?_
  have hs : p.code.size = 0 + (e.code false 0).length := by
    rw [hp, List.size_toArray, Nat.zero_add]
  cases budget with
  | zero => rw [runFrom, if_neg (by rw [hs]; exact Nat.lt_irrefl _)]
  | succ budget => rw [runFrom, Array.getElem?_eq_none_iff.mpr (Nat.le_of_eq hs)]

end ExprEngine
