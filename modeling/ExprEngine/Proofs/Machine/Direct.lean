import ExprEngine.Proofs.Machine.Agreement
import ExprEngine.Proofs.Machine.Stack
import ExprEngine.Proofs.Machine.Traversal

/-!
# Direct evaluation

What an expression means, without a stack machine.  Operands are evaluated from left to right.  A
name is its own value: what it stands for is read by the operator or the function that needs it.
`either` and `both` come to the operand that decides, a choice evaluates one of its branches, and a
default takes the place of a subject that is the empty text.  Sources that calls ask for are
evaluated directly too.

The machine goes through the same steps, with the values of operands on its stack until they are
used (`Over`).

* `Expr.run_agrees`: along an expression, the machine comes to what the expression means.
* `compile_correct`: so does the program of a source, within the limits of the machine.
-/

namespace ExprEngine

open Machine

/-! ### Meanings -/

/-- The value of an operand without parts. -/
def Leaf.eval : Leaf → Eval Value
  | .value v => return v
  | .param s => selected s
  | .body name => do
    match (← getSession).macroBody? name with
    | some found => return .text found
    | none =>
      report (.undefinedMacro name)
      return .blank
  | .output line => commandOutput line

/-- The value of a subject. -/
def Subject.eval : Subject → Eval Value
  | .variable x => do return (← getSession).resolveName x
  | .param s => selected s

mutual

/-- The value of an expression. -/
def Expr.eval (evaluate : String → Eval Value) : Expr → Eval Value
  | .leaf l _ => l.eval
  | .fallback subject text _ _ _ => do
    let v ← subject.eval
    if v.isBlank then return .text text else return v
  | .unary op e _ => do
    let v ← e.eval evaluate
    inSession (op.operator.reduce [v])
  | .binary op a b _ => do
    let v ← a.eval evaluate
    let w ← b.eval evaluate
    inSession (op.operator.reduce [v, w])
  | .sequence a b _ => do
    let _ ← a.eval evaluate
    b.eval evaluate
  | .either a b _ => do
    let v ← a.eval evaluate
    if ← observe (·.truth v) then return v else b.eval evaluate
  | .both a b _ => do
    let v ← a.eval evaluate
    if ← observe (·.truth v) then b.eval evaluate else return v
  | .choice c a b _ _ => do
    let v ← c.eval evaluate
    if ← observe (·.truth v) then a.eval evaluate else b.eval evaluate
  | .orElse c b _ => do
    let v ← c.eval evaluate
    if ← observe (·.truth v) then return v else b.eval evaluate
  | .call e args _ => do
    let callee ← e.eval evaluate
    let vs ← args.eval evaluate
    callValue evaluate (callee :: vs)

/-- The values of arguments in order. -/
def Args.eval (evaluate : String → Eval Value) : Args → Eval (List Value)
  | .nil => return []
  | .cons e rest => do
    let v ← e.eval evaluate
    return v :: (← rest.eval evaluate)

end

theorem Leaf.eval_mild (l : Leaf) : Mild l.eval := by
  cases l with
  | value v => exact .pure v
  | param s => exact selected_mild s
  | body name =>
      refine .bind .getSession fun s => ?_
      split
      · exact .pure _
      · exact .bind (.report _) fun _ => .pure _
  | output line => exact commandOutput_mild line

theorem Subject.eval_mild (s : Subject) : Mild s.eval := by
  match s with
  | .variable x => exact .bind .getSession fun s => .pure _
  | .param s => exact selected_mild s

namespace Machine

/-- A failure is reported, unless an evaluation inside has reported it. -/
def reported : EStateM.Result Halt Machine Value → EStateM.Result Halt Machine Value
  | .error (.failure (.eval e)) n => .error e.halt
      { n with session := if e = .aborted then n.session else n.session.report (.abort (.eval e)) }
  | r => r

/-- A step whose failure is reported. -/
def reporting (x : Eval Value) : Eval Value :=
  fun m => reported (x m)

/-- The value of a source in which evaluations nest less deeply than `depth`. -/
def direct : (depth : Nat) → String → Eval Value
  | 0, _ => throw .exhausted
  | depth + 1, source => fun m =>
    let parsed := Grammar.parse m.session.findCommand? source
    let n := parsed.2.foldl remark m
    match parsed.1 with
    | .ok e => reporting (e.eval (direct depth)) n
    | .error e => .error (.failure (.compile e))
        { n with session := n.session.report (.abort (.compile e)) }

/-! ### Machines with and without a stack -/

/-- The machines differ in their stacks only: the first has `stack`, the second keeps its own.
Neither folds constants. -/
structure Over (kept stack : List Value) (m n : Machine) : Prop where
  eq : m = { n with stack }
  kept : n.stack = kept
  optimize : n.settings.optimize = false

/-- The first machine has a stack on top of this one. -/
def Beyond (kept stack : List Value) (m n : Machine) : Prop :=
  ∃ upper, stack <:+ upper ∧ Over kept upper m n

variable {α : Type} {kept base stack : List Value} {m n : Machine}

theorem Over.reframes (kept stack : List Value) : Reframes (Over kept stack) where
  session h := by rw [h.eq]
  host h := by rw [h.eq]
  random h := by rw [h.eq]
  setSession s h := ⟨by rw [h.eq], h.kept, h.optimize⟩
  setRandom r h := ⟨by rw [h.eq], h.kept, h.optimize⟩

theorem Over.stack_eq (h : Over kept stack m n) : m.stack = stack := by
  rw [h.eq]

theorem Over.restack (h : Over kept stack m n) (upper : List Value) :
    Over kept upper { m with stack := upper } n :=
  ⟨by rw [h.eq], h.kept, h.optimize⟩

theorem Over.beyond (h : Over kept stack m n) (hs : base <:+ stack) : Beyond kept base m n :=
  ⟨stack, hs, h⟩

/-- What a step pushes lies on the stack. -/
theorem Over.push (h : Over kept stack m n) (v : Value) :
    Agree Limited (Beyond kept base) (fun _ w => Over kept (w :: stack)) m
      ((push v >>= fun _ => pure (none : Option Nat)) m) (.ok v n) := by
  rw [bind_apply, push_apply]
  split
  · next hl =>
    split at hl
    · cases hl
    · cases hl
      refine .ok (Nat.le_refl _) ?_
      rw [h.stack_eq]
      exact h.restack _
  · next hl =>
    split at hl
    · cases hl
      exact .excused (.halt rfl)
    · cases hl

/-- The operands that lie on the stack are taken, the deepest first. -/
theorem Over.popMany (vs : List Value) (h : Over kept (vs.reverse ++ stack) m n)
    (hs : base <:+ stack) : popMany base.length vs.length m = .ok vs { m with stack } := by
  have hl := hs.length_le
  have hr : vs.length = vs.reverse.length := List.length_reverse.symm
  rw [popMany_apply, h.stack_eq, if_neg (by simp; omega), hr, List.take_left, List.drop_left,
    List.reverse_reverse]

/-! ### Operations -/

section

variable {evaluate evaluate' : String → Eval Value} {spent : Halt}

/-- An operation agrees with what its step agrees with. -/
theorem runOp_agrees (hs : spent.limits) {op : Op Nat} {t : EStateM.Result Halt Machine α}
    {Q : α → Machine → Machine → Prop}
    (h : Agree Limited (Beyond kept base) (fun _ => Q) m (step evaluate base.length op m) t)
    (budget : Nat) :
    Agree Limited (Beyond kept base) (fun _ => Q) m
      (runOp evaluate base.length spent op budget m) t := by
  cases budget with
  | zero => exact .excused (.halt hs)
  | succ budget => exact h.andThen fun _ b _ _ h => .ok (Nat.le_refl _) h

theorem Over.lift (hs : base <:+ stack) {β : Type} {Q : β → α → Machine → Machine → Prop}
    {r : EStateM.Result Halt Machine β} {t : EStateM.Result Halt Machine α}
    (h : Agree Limited (Over kept stack) Q m r t) : Agree Limited (Beyond kept base) Q m r t :=
  h.mono (fun _ _ h => h.beyond hs) fun _ _ _ _ h => h

/-- What a step comes to and pushes. -/
theorem Over.pushes (hs : base <:+ stack) {x : Eval Value} {t : EStateM.Result Halt Machine Value}
    (hx : Agree Limited (Over kept stack) (Same (Over kept stack)) m (x m) t) :
    Agree Limited (Beyond kept base) (fun _ v => Over kept (v :: stack)) m
      ((x >>= fun v => Machine.push v >>= fun _ => pure (none : Option Nat)) m) t := by
  refine (Over.lift hs hx).andThen fun v w m' n' h => ?_
  obtain ⟨rfl, h⟩ := h
  exact h.push v

theorem step_leaf (base : Nat) (l : Leaf) :
    step evaluate base l.op = l.eval >>= fun v => Machine.push v >>= fun _ => pure none := by
  cases l with
  | body name =>
      simp only [Leaf.op, step, Leaf.eval, bind_assoc]
      refine bind_congr fun s => ?_
      cases s.macroBody? name <;> simp only [bind_assoc, pure_bind]
  | _ => simp only [Leaf.op, step, Leaf.eval, pure_bind]

theorem step_subject (base : Nat) (s : Subject) :
    step evaluate base s.op = s.eval >>= fun v => Machine.push v >>= fun _ => pure none := by
  match s with
  | .variable x => simp only [Subject.op, step, Subject.eval, bind_assoc, pure_bind]
  | .param s => simp only [Subject.op, step, Subject.eval]

/-- Operands are taken from the stack, and what a step makes of them takes their place. -/
theorem Over.replaces (hs : base <:+ stack) (vs : List Value)
    (h : Over kept (vs.reverse ++ stack) m n) {x : List Value → Eval Value}
    {t : EStateM.Result Halt Machine Value}
    (hx : ∀ m, Over kept stack m n →
      Agree Limited (Over kept stack) (Same (Over kept stack)) m (x vs m) t) :
    Agree Limited (Beyond kept base) (fun _ v => Over kept (v :: stack)) m
      ((Machine.popMany base.length vs.length >>= fun vs =>
        x vs >>= fun v => Machine.push v >>= fun _ => pure (none : Option Nat)) m) t := by
  rw [bind_of_ok (h.popMany vs hs)]
  exact Agree.of_le (Over.pushes hs (hx _ (h.restack stack))) (·.of_le (Nat.le_refl _))
    (Nat.le_refl _)

/-- The top value is taken. -/
theorem Over.drops (hs : base <:+ stack) {v : Value} (h : Over kept (v :: stack) m n) :
    Agree Limited (Beyond kept base) (fun _ _ => Over kept stack) m
      (step evaluate base.length (.pop 1) m) (.ok () n) := by
  have hp := Over.popMany [v] h hs
  have hd : step evaluate base.length (.pop 1) m = .ok none { m with stack } := bind_of_ok hp _
  rw [hd]
  exact .ok (Nat.le_refl _) (h.restack stack)

/-! ### Branches -/

theorem decided_ifFalse (v : Value) (x y : Eval α) :
    (decided v .ifFalse >>= fun taken => if taken then x else y) =
      observe (·.truth v) >>= fun b => if b then y else x := by
  rw [decided, bind_assoc]
  refine bind_congr fun b => ?_
  cases b <;> rfl

theorem Over.jumps (hs : base <:+ stack) {v : Value} (h : Over kept (v :: stack) m n)
    (kind : JumpKind) : jumps kind base.length m = decided v kind m :=
  jumps_of_stack _ h.stack_eq hs.length_le kind

theorem runJump_agrees (hl : spent.limits) (hs : base <:+ stack) {v : Value}
    (h : Over kept (v :: stack) m n) (kind : JumpKind) (budget : Nat) :
    Agree Limited (Beyond kept base) (fun r taken m n => r.1 = taken ∧ Over kept (v :: stack) m n) m
      (runJump base.length spent kind budget m) (decided v kind n) := by
  cases budget with
  | zero => exact .excused (.halt hl)
  | succ budget =>
      have hx : Agree Limited (Over kept (v :: stack)) (Same (Over kept (v :: stack))) m
          (Machine.jumps kind base.length m) (decided v kind n) := by
        rw [h.jumps hs]
        exact .of_mild (Over.reframes kept _) h (decided_mild v kind)
      have hs' : base <:+ v :: stack := hs.trans (List.suffix_cons v stack)
      exact (Over.lift hs' hx).andThen fun a b _ _ h => .ok (Nat.le_refl _) h

/-- A branch around something that agrees with `y`. -/
theorem runBranch_agrees (hl : spent.limits) (hs : base <:+ stack) {v : Value}
    (h : Over kept (v :: stack) m n) (kind : JumpKind) {x : Nat → Eval Nat} {y : Eval Value}
    (hx : ∀ budget m n, Over kept stack m n →
      Agree Limited (Beyond kept base) (fun _ w => Over kept (w :: stack)) m (x budget m) (y n))
    (budget : Nat) :
    Agree Limited (Beyond kept base) (fun _ w => Over kept (w :: stack)) m
      (runBranch evaluate base.length spent kind x budget m)
      ((decided v kind >>= fun taken => if taken then pure v else y) n) := by
  refine (runJump_agrees hl hs h kind budget).bind fun (taken, budget) decided m n h => ?_
  obtain ⟨rfl, h⟩ := h
  cases taken with
  | true => exact .ok (Nat.le_refl _) h
  | false => exact (runOp_agrees hl (h.drops hs) budget).first hx

/-- A choice between two things that agree with `yes'` and `no'`. -/
theorem runChoice_agrees (hl : spent.limits) (hs : base <:+ stack) {v : Value}
    (h : Over kept (v :: stack) m n) {yes no : Nat → Eval Nat} {yes' no' : Eval Value}
    (hyes : ∀ budget m n, Over kept stack m n →
      Agree Limited (Beyond kept base) (fun _ w => Over kept (w :: stack)) m (yes budget m)
        (yes' n))
    (hno : ∀ budget m n, Over kept stack m n →
      Agree Limited (Beyond kept base) (fun _ w => Over kept (w :: stack)) m (no budget m) (no' n))
    (budget : Nat) :
    Agree Limited (Beyond kept base) (fun _ w => Over kept (w :: stack)) m
      (runChoice evaluate base.length spent yes no budget m)
      ((decided v .ifFalse >>= fun taken => if taken then no' else yes') n) := by
  refine (runJump_agrees hl hs h .ifFalse budget).bind fun (taken, budget) decided m n h => ?_
  obtain ⟨rfl, h⟩ := h
  refine (runOp_agrees hl (h.drops hs) budget).first fun budget m n h => ?_
  cases taken with
  | true => exact hno budget m n h
  | false =>
      refine (hyes budget m n h).andThen fun budget w m n h => ?_
      cases budget with
      | zero => exact .excused (.halt hl)
      | succ budget => exact .ok (Nat.le_refl _) h

end

end Machine

/-! ### Runs and meanings -/

section

variable {kept base : List Value} {evaluate evaluate' : String → Eval Value} {spent : Halt}

mutual

/-- **Along an expression**, the machine comes to what the expression means, with the value on top
of its stack. -/
theorem Expr.run_agrees (e : Expr) (hl : spent.limits)
    (he : ∀ stack source m n, Over kept stack m n →
      Agree Exceeds (Over kept stack) (Same (Over kept stack)) m (evaluate source m)
        (evaluate' source n))
    {stack : List Value} (hs : base <:+ stack) {m n : Machine} (h : Over kept stack m n)
    (budget : Nat) :
    Agree Limited (Beyond kept base) (fun _ v => Over kept (v :: stack)) m
      (e.run evaluate base.length spent budget m) (e.eval evaluate' n) := by
  have hs' (v : Value) : base <:+ v :: stack := hs.trans (List.suffix_cons v stack)
  match e with
  | .leaf l span =>
      refine runOp_agrees hl ?_ budget
      rw [step_leaf]
      exact Over.pushes hs (.of_mild (Over.reframes kept stack) h l.eval_mild)
  | .fallback subject text _ _ _ =>
      have hx : Agree Limited (Beyond kept base) (fun _ v => Over kept (v :: stack)) m
          (runOp evaluate base.length spent subject.op budget m) (subject.eval n) := by
        refine runOp_agrees hl ?_ budget
        rw [step_subject]
        exact Over.pushes hs (.of_mild (Over.reframes kept stack) h subject.eval_mild)
      refine hx.bind fun budget v m n h => ?_
      -- the default is pushed where the subject was
      have ht (budget : Nat) (m n : Machine) (h : Over kept stack m n) :
          Agree Limited (Beyond kept base) (fun _ v => Over kept (v :: stack)) m
            (runOp evaluate base.length spent (.push (.text text)) budget m)
            ((pure (.text text) : Eval Value) n) :=
        runOp_agrees hl (h.push _) budget
      have hb : Agree Limited (Beyond kept base) (fun _ w => Over kept (w :: stack)) m
          (runBranch evaluate base.length spent .ifNonEmpty
            (runOp evaluate base.length spent (.push (.text text))) budget m)
          ((decided v .ifNonEmpty >>= fun taken =>
            if taken then pure v else pure (.text text)) n) :=
        runBranch_agrees hl hs h .ifNonEmpty ht budget
      cases hv : v.isBlank <;> simpa [decided, hv] using hb
  | .unary op e span =>
      refine (e.run_agrees hl he hs h budget).bind fun budget v m n h => ?_
      refine runOp_agrees hl (Over.replaces hs [v] h fun m h => ?_) budget
      exact .of_blind (Over.reframes kept stack) h (.inSession _)
        (inSession_calm (op.operator.orderly_reduce _) m)
  | .binary op a b span =>
      refine (a.run_agrees hl he hs h budget).bind fun budget v m n h => ?_
      refine (b.run_agrees hl he (hs' v) h budget).bind fun budget w m n h => ?_
      refine runOp_agrees hl (Over.replaces hs [v, w] h fun m h => ?_) budget
      exact .of_blind (Over.reframes kept stack) h (.inSession _)
        (inSession_calm (op.operator.orderly_reduce _) m)
  | .sequence a b span =>
      refine (a.run_agrees hl he hs h budget).bind fun budget v m n h => ?_
      exact (runOp_agrees hl (h.drops hs) budget).first fun budget m n h =>
        b.run_agrees hl he hs h budget
  | .either a b span | .orElse a b span =>
      refine (a.run_agrees hl he hs h budget).bind fun budget v m n h => ?_
      exact runBranch_agrees hl hs h .ifTrue
        (fun budget m n h => b.run_agrees hl he hs h budget) budget
  | .both a b span =>
      refine (a.run_agrees hl he hs h budget).bind fun budget v m n h => ?_
      rw [← decided_ifFalse]
      exact runBranch_agrees hl hs h .ifFalse
        (fun budget m n h => b.run_agrees hl he hs h budget) budget
  | .choice c a b question colon =>
      refine (c.run_agrees hl he hs h budget).bind fun budget v m n h => ?_
      rw [← decided_ifFalse]
      exact runChoice_agrees hl hs h (fun budget m n h => a.run_agrees hl he hs h budget)
        (fun budget m n h => b.run_agrees hl he hs h budget) budget
  | .call e args span =>
      refine (e.run_agrees hl he hs h budget).bind fun budget callee m n h => ?_
      refine (args.run_agrees hl he (hs' callee) h budget).bind fun budget vs m n h => ?_
      have hv : Over kept ((callee :: vs).reverse ++ stack) m n := by
        rw [List.reverse_cons, List.append_assoc]
        exact h.2
      -- the callee and the arguments are taken together
      rw [← h.1]
      exact runOp_agrees hl (Over.replaces hs _ hv fun m h =>
        callValue_agrees (Over.reframes kept stack) (he stack) h _) budget

/-- Along arguments. -/
theorem Args.run_agrees (args : Args) (hl : spent.limits)
    (he : ∀ stack source m n, Over kept stack m n →
      Agree Exceeds (Over kept stack) (Same (Over kept stack)) m (evaluate source m)
        (evaluate' source n))
    {stack : List Value} (hs : base <:+ stack) {m n : Machine} (h : Over kept stack m n)
    (budget : Nat) :
    Agree Limited (Beyond kept base)
      (fun _ vs m n => vs.length = args.length ∧ Over kept (vs.reverse ++ stack) m n) m
      (args.run evaluate base.length spent budget m) (args.eval evaluate' n) := by
  match args with
  | .nil => exact .ok (Nat.le_refl _) ⟨rfl, h⟩
  | .cons e rest =>
      refine (e.run_agrees hl he hs h budget).bind fun budget v m n h => ?_
      have hs' : base <:+ v :: stack := hs.trans (List.suffix_cons v stack)
      refine (rest.run_agrees hl he hs' h budget).last fun budget vs m n h => ?_
      refine .ok (Nat.le_refl _) ⟨congrArg (· + 1) h.1, ?_⟩
      rw [List.reverse_cons, List.append_assoc]
      exact h.2

end

end

/-! ### Programs and meanings -/

namespace Machine

variable {kept stack : List Value}

/-- Back at its stack, an execution that fails has reported as much as a direct evaluation that
does. -/
theorem Over.unwind {upper : List Value} {m n : Machine} (hs : stack <:+ upper)
    (h : Over kept upper m n) (e : EvalError) :
    Over kept stack (m.unwind stack.length e)
      { n with
        session := if e = .aborted then n.session else n.session.report (.abort (.eval e)) } := by
  obtain ⟨values, hv⟩ := hs
  refine ⟨?_, h.kept, h.optimize⟩
  unfold Machine.unwind
  -- what the execution has put on its stack is dropped
  have hd : upper.drop (upper.length - stack.length) = stack := by
    rw [← hv, List.length_append, Nat.add_sub_cancel, List.drop_left]
  simp only [h.eq, hd]

/-- The end of an execution and the end of a direct evaluation. -/
theorem finished_agrees {m : Machine} {r : EStateM.Result Halt Machine Unit}
    {t : EStateM.Result Halt Machine Value} (hr : ∀ e n, r ≠ .error (.failure (.compile e)) n)
    (h : Agree Limited (Beyond kept stack) (fun _ v => Over kept (v :: stack)) m r t) :
    Agree Exceeds (Over kept stack) (Same (Over kept stack)) m (finished stack.length r)
      (reported t) := by
  cases h with
  | excused h => exact .excused (h.finished _)
  | @ok u v m' n hm h =>
      rw [finished_of_single h.stack_eq]
      exact .ok hm ⟨rfl, h.restack stack⟩
  | @error k m' n hm h =>
      cases k with
      | failure f =>
          cases f with
          | compile e => exact absurd rfl (hr e m')
          | eval e =>
              obtain ⟨upper, hs, h⟩ := h fun _ => nofun
              refine .error ?_ fun _ => h.unwind hs e
              rw [limitReports_unwind]
              exact Nat.le_trans hm (Nat.le_add_right _ _)
      | fault f => exact .error hm fun hk => absurd rfl (hk f)
      | exhausted => exact .excused (.inr ⟨rfl, hm⟩)

/-- **The execution** of the code of an expression comes to what the expression means. -/
theorem execute_agrees {evaluate evaluate' : String → Eval Value}
    (he : ∀ stack source m n, Over kept stack m n →
      Agree Exceeds (Over kept stack) (Same (Over kept stack)) m (evaluate source m)
        (evaluate' source n))
    {e : Expr} {p : Program} (hp : p.code = (e.code false 0).toArray) {m n : Machine}
    (h : Over kept stack m n) :
    Agree Exceeds (Over kept stack) (Same (Over kept stack)) m (execute evaluate p m)
      (reporting (e.eval evaluate') n) := by
  rw [execute_apply, h.stack_eq]
  refine finished_agrees ?_ ?_
  · exact runFrom_accepted evaluate _ p (budget_accepted m.settings) _ 0 m
  · rw [e.runFrom_program hp]
    exact (e.run_agrees (budget_limits m.settings) he List.suffix_rfl h _).andThen
      fun _ _ _ _ h => .ok (Nat.le_refl _) h

theorem Over.remarks {m n : Machine} (h : Over kept stack m n) (notes : List Note) :
    Over kept stack (notes.foldl Machine.remark m) (notes.foldl Machine.remark n) := by
  obtain ⟨_, _, _, hr⟩ := remarks_apply n notes
  have hm := hr n.settings stack rfl
  have hn := hr n.settings n.stack rfl
  rw [h.eq, hm, hn]
  exact ⟨rfl, h.kept, h.optimize⟩

/-- **Every evaluation** comes to what its source means. -/
theorem evaluate_agrees (depth : Nat) (source : String) {m n : Machine} (h : Over kept stack m n) :
    Agree Exceeds (Over kept stack) (Same (Over kept stack)) m (evaluate depth source m)
      (direct depth source n) := by
  induction depth generalizing stack source m n with
  | zero => exact .excused (.inr ⟨rfl, Nat.le_refl _⟩)
  | succ depth ih =>
      have hm := (remarked_calm source m).limitReports_le
      have ho : m.settings.optimize = false := by rw [h.eq]; exact h.optimize
      have hn : n.session = m.session := (Over.reframes kept stack).session h
      have hr : Over kept stack (remarked source m)
          ((Grammar.parse m.session.findCommand? source).2.foldl Machine.remark n) :=
        h.remarks _
      rw [evaluate, evaluateWith_apply, Program.compile_fst, ho]
      simp only [direct, hn]
      cases hp : (Grammar.parse m.session.findCommand? source).1 with
      | ok e =>
          refine Agree.of_le ?_ (·.of_le hm) hm
          exact execute_agrees (fun stack source m n h => ih source h) rfl hr
      | error e =>
          refine .error ?_ fun _ => ?_
          · exact Nat.le_trans hm (by rw [Session.limitReports_report]; exact Nat.le_add_right _ _)
          · rw [(Over.reframes kept stack).session hr]
            exact (Over.reframes kept stack).setSession _ hr

theorem Over.outcome {m : Machine} {r t : EStateM.Result Halt Machine Value}
    (h : Agree Exceeds (Over stack stack) (Same (Over stack stack)) m r t) (hl : ¬Exceeds m r) :
    SameOutcome r t := by
  have eq (m n : Machine) (h : Over stack stack m n) : n = id m := by
    rw [h.eq, ← h.kept]
    rfl
  have ho := h.outcome eq hl
  rwa [moved_id] at ho

/-- **Compiler correctness.**  What the grammar reads out of a source is compiled, and within the
limits of the machine the program comes to what the expression means: to the same value or failure
and the same machine, with its session, its reports, its output and its random numbers. -/
theorem compile_correct {commands : Grammar.Commands} {source : String} {e : Expr}
    (hp : (Grammar.parse commands source).1 = .ok e) :
    ∃ p, (Program.compile false commands source).1 = .ok p ∧
      ∀ depth m, m.settings.optimize = false → ¬Exceeds m (execute (evaluate depth) p m) →
        SameOutcome (execute (evaluate depth) p m) (reporting (e.eval (direct depth)) m) := by
  refine ⟨⟨source, (e.code false 0).toArray⟩, by rw [Program.compile_fst, hp]; rfl, ?_⟩
  intro depth m ho hl
  have h : Over m.stack m.stack m m := ⟨rfl, rfl, ho⟩
  exact Over.outcome (execute_agrees (fun _ source _ _ h => evaluate_agrees depth source h) rfl h)
    hl

/-- A variable is set and decides whether a text is what the whole comes to. -/
def setAndTest : Program :=
  ⟨"y := 5, y & \"t\"", #[⟨.push (.name "y"), ⟨0, 1⟩⟩, ⟨.push (.int 5), ⟨5, 6⟩⟩,
    ⟨.reduce .assign 2, ⟨2, 4⟩⟩, ⟨.pop 1, ⟨6, 7⟩⟩, ⟨.push (.name "y"), ⟨8, 9⟩⟩,
    ⟨.jump .ifFalse 8, ⟨10, 11⟩⟩, ⟨.pop 1, ⟨10, 11⟩⟩, ⟨.push (.text "t"), ⟨12, 15⟩⟩]⟩

/-- A machine that folds no constants. -/
def unfolding : Machine :=
  { settings := { optimize := false } }

theorem compile_correct_setAndTest :
    ∃ e, (Grammar.parse (fun _ => none) setAndTest.source).1 = .ok e ∧
      (∃ n, execute (evaluate 0) setAndTest unfolding = .ok (.text "t") n) ∧
      execute (evaluate 0) setAndTest unfolding = reporting (e.eval (direct 0)) unfolding := by
  have hc : (Program.compile false (fun _ => none) setAndTest.source).1 = .ok setAndTest :=
    of_toOption (by decide +kernel)
  have hv : ∃ n, execute (evaluate 0) setAndTest unfolding = .ok (.text "t") n := ⟨_, rfl⟩
  cases hp : (Grammar.parse (fun _ => none) setAndTest.source).1 with
  | error e =>
      rw [Program.compile_fst, hp] at hc
      cases hc
  | ok e =>
      obtain ⟨p, hq, h⟩ := compile_correct hp
      cases hc.symm.trans hq
      obtain ⟨n, hn⟩ := hv
      have ho := h 0 unfolding rfl (by rw [hn]; exact id)
      rw [hn] at ho ⊢
      exact ⟨e, rfl, ⟨n, rfl⟩, ho⟩

end Machine

end ExprEngine
