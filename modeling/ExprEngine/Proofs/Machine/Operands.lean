import ExprEngine.Proofs.Machine.Direct

/-!
# Values that runs leave

A run along an expression leaves one value on top of the stack that it found, and a run along
arguments one for each; the stack below stays, and it stays within its limit.

* `Replaces`: a step that takes so many values off the stack and puts so many there; closed under
  sequencing, and under values below those that it takes.
* `Expr.run_replaces`, `Args.run_replaces`: what runs leave.
-/

namespace ExprEngine.Machine

variable {α β : Type} {taken given left count : Nat}

/-! ### Values in the place of others -/

/-- The top of the stack has given way to so many values; below them is what was below. -/
structure Replaced (taken given : Nat) (m n : Machine) : Prop where
  settings : n.settings = m.settings
  room : n.stack.length ≤ n.settings.stackSize
  stack : ∃ vs, vs.length = given ∧ n.stack = vs ++ m.stack.drop taken

/-- With so many values on the stack and the stack within its limit, the step puts others in their
place if it comes to an end. -/
def Replaces (taken given : Nat) (x : Eval α) : Prop :=
  ∀ m a n, taken ≤ m.stack.length → m.stack.length ≤ m.settings.stackSize → x m = .ok a n →
    Replaced taken given m n

namespace Replaces

theorem bind {x : Eval α} {f : α → Eval β} (hx : Replaces taken left x)
    (hf : ∀ a, Replaces left given (f a)) : Replaces taken given (x >>= f) := by
  intro m b o ht hr he
  rw [bind_apply] at he
  cases hm : x m with
  | error h n =>
      rw [hm] at he
      cases he
  | ok a n =>
      rw [hm] at he
      obtain ⟨hs, hn, vs, hv, hk⟩ := hx m a n ht hr hm
      have hl : left ≤ n.stack.length := by
        rw [hk, List.length_append, hv]
        exact Nat.le_add_right ..
      obtain ⟨hs', ho, ws, hw, hk'⟩ := hf a n b o hl hn he
      refine ⟨hs'.trans hs, ho, ws, hw, ?_⟩
      rw [hk', hk, ← hv, List.drop_left]

/-- Values below those that the step takes are left where they are. -/
theorem under {x : Eval α} (hx : Replaces taken given x) (count : Nat) :
    Replaces (taken + count) (given + count) x := by
  intro m a n ht hr he
  obtain ⟨hs, hn, vs, hv, hk⟩ := hx m a n (Nat.le_of_add_right_le ht) hr he
  refine ⟨hs, hn, vs ++ (m.stack.drop taken).take count, ?_, ?_⟩
  · rw [List.length_append, hv, List.length_take, List.length_drop]
    omega
  · rw [hk, List.append_assoc, ← List.drop_drop, List.take_append_drop]

theorem calm {x : Eval α} (hx : ∀ m, Calm m (after x m)) : Replaces 0 0 x := by
  intro m a n _ hr he
  have hc := hx m
  rw [after_of_ok he] at hc
  refine ⟨hc.settings, ?_, [], rfl, hc.stack⟩
  rw [hc.stack, hc.settings]
  exact hr

theorem mild {x : Eval α} (hx : Mild x) : Replaces 0 0 x :=
  calm fun m => (hx.quiet m).calm

theorem pure (a : α) (count : Nat) : Replaces count count (pure a : Eval α) := by
  have h : Replaces (0 + count) (0 + count) (Pure.pure a : Eval α) := (mild (.pure a)).under count
  rwa [Nat.zero_add] at h

theorem throw (h : Halt) : Replaces taken given (throw h : Eval α) :=
  fun _ _ _ _ _ => nofun

theorem ite {c : Prop} [Decidable c] {x y : Eval α} (hx : Replaces taken given x)
    (hy : Replaces taken given y) : Replaces taken given (if c then x else y) := by
  split
  · exact hx
  · exact hy

theorem push (v : Value) : Replaces 0 1 (push v) := by
  intro m a n _ hr he
  rw [push_apply] at he
  split at he
  · cases he
  · next hs =>
    cases he
    exact ⟨rfl, Nat.lt_of_not_le hs, [v], rfl, rfl⟩

theorem pushed {x : Eval Value} (hx : Replaces taken 0 x) :
    Replaces taken 1 (x >>= fun v => Machine.push v >>= fun _ => Pure.pure (none : Option Nat)) :=
  hx.bind fun v => (push v).bind fun _ => pure _ 1

theorem popMany (base count : Nat) : Replaces count 0 (popMany base count) := by
  intro m vs n _ hr he
  rw [popMany_apply] at he
  split at he
  · cases he
  · cases he
    refine ⟨rfl, ?_, [], rfl, rfl⟩
    rw [List.length_drop]
    exact Nat.le_trans (Nat.sub_le ..) hr

theorem top (base : Nat) : Replaces 0 0 (top base) := by
  intro m v n _ hr he
  rw [top_apply] at he
  split at he
  · split at he
    · cases he
      exact ⟨rfl, hr, [], rfl, rfl⟩
    · cases he
  · cases he

theorem jumps (kind : JumpKind) (base : Nat) : Replaces 0 0 (jumps kind base) := by
  cases kind with
  | always => exact mild (.pure _)
  | ifFalse => exact (top _).bind fun v => (mild (.observe _)).bind fun b => mild (.pure _)
  | ifTrue => exact (top _).bind fun v => mild (.observe _)
  | ifNonEmpty => exact (top _).bind fun v => mild (.pure _)

theorem disciplined {x : Eval α} (hx : Disciplined x) : Replaces 0 0 x := by
  intro m a n _ hr he
  obtain ⟨ha, hk⟩ := hx m hr
  rw [after_of_ok he] at ha
  rw [he] at hk
  exact ⟨ha.settings, ha.room, [], rfl, hk⟩

end Replaces

/-! ### Operations -/

variable {evaluate : String → Eval Value} {base : Nat} {spent : Halt}

theorem runOp_replaces {op : Op Nat} (h : Replaces taken given (step evaluate base op))
    (budget : Nat) : Replaces taken given (runOp evaluate base spent op budget) := by
  cases budget with
  | zero => exact .throw spent
  | succ budget => exact h.bind fun _ => .pure _ given

theorem runJump_replaces (kind : JumpKind) (budget count : Nat) :
    Replaces count count (runJump base spent kind budget) := by
  cases budget with
  | zero => exact .throw spent
  | succ budget =>
      have h := (Replaces.jumps kind base).under count
      rw [Nat.zero_add] at h
      exact h.bind fun _ => .pure _ count

theorem pop_replaces (budget : Nat) :
    Replaces 1 0 (runOp evaluate base spent (.pop 1) budget) :=
  runOp_replaces ((Replaces.popMany base 1).bind fun _ => .pure _ 0) budget

theorem reduce_replaces (op : Operator) (n budget : Nat) :
    Replaces n 1 (runOp evaluate base spent (.reduce op n) budget) := by
  refine runOp_replaces ((Replaces.popMany base n).bind fun vs => .pushed ?_) budget
  exact .calm (inSession_calm (op.orderly_reduce vs))

theorem leaf_replaces (l : Leaf) (budget : Nat) :
    Replaces 0 1 (runOp evaluate base spent l.op budget) := by
  refine runOp_replaces ?_ budget
  rw [step_leaf]
  exact .pushed (.mild l.eval_mild)

theorem subject_replaces (subject : Subject) (budget : Nat) :
    Replaces 0 1 (runOp evaluate base spent subject.op budget) := by
  refine runOp_replaces ?_ budget
  rw [step_subject]
  exact .pushed (.mild subject.eval_mild)

/-- Either way a branch leaves one value. -/
theorem runBranch_replaces {kind : JumpKind} {x : Nat → Eval Nat}
    (hx : ∀ budget, Replaces 0 1 (x budget)) (budget : Nat) :
    Replaces 1 1 (runBranch evaluate base spent kind x budget) :=
  (runJump_replaces kind budget 1).bind fun (_, budget) =>
    .ite (.pure _ 1) ((pop_replaces budget).bind hx)

theorem runChoice_replaces {yes no : Nat → Eval Nat} (hy : ∀ budget, Replaces 0 1 (yes budget))
    (hn : ∀ budget, Replaces 0 1 (no budget)) (budget : Nat) :
    Replaces 1 1 (runChoice evaluate base spent yes no budget) :=
  (runJump_replaces .ifFalse budget 1).bind fun (_, budget) =>
    (pop_replaces budget).bind fun budget => .ite (hn budget)
      ((hy budget).bind fun budget => (runJump_replaces .always budget 1).bind fun _ => .pure _ 1)

end ExprEngine.Machine

namespace ExprEngine

open Machine

variable {evaluate : String → Eval Value} {base : Nat} {spent : Halt}

/-! ### Expressions -/

mutual

/-- **A run along an expression** leaves one value. -/
theorem Expr.run_replaces (he : ∀ source, Disciplined (evaluate source)) (e : Expr)
    (budget : Nat) : Replaces 0 1 (e.run evaluate base spent budget) := by
  match e with
  | .leaf l span => exact leaf_replaces l budget
  | .fallback subject text _ _ _ =>
      exact (subject_replaces subject budget).bind
        (runBranch_replaces (leaf_replaces (.value (.text text))))
  | .unary op e span => exact (e.run_replaces he budget).bind (reduce_replaces op.operator 1)
  | .binary op a b span =>
      exact (a.run_replaces he budget).bind fun budget =>
        ((b.run_replaces he budget).under 1).bind (reduce_replaces op.operator 2)
  | .sequence a b span =>
      exact (a.run_replaces he budget).bind fun budget =>
        (pop_replaces budget).bind (b.run_replaces he)
  | .either a b span | .both a b span | .orElse a b span =>
      exact (a.run_replaces he budget).bind (runBranch_replaces (b.run_replaces he))
  | .choice c a b question colon =>
      exact (c.run_replaces he budget).bind
        (runChoice_replaces (a.run_replaces he) (b.run_replaces he))
  | .call e args span =>
      refine (e.run_replaces he budget).bind fun budget =>
        ((args.run_replaces he budget).under 1).bind fun budget => ?_
      refine runOp_replaces ((Replaces.popMany base _).bind fun vs => .pushed ?_) budget
      exact .disciplined (callValue_disciplined he vs)

/-- A run along arguments leaves a value for each. -/
theorem Args.run_replaces (he : ∀ source, Disciplined (evaluate source)) (args : Args)
    (budget : Nat) : Replaces 0 args.length (args.run evaluate base spent budget) := by
  match args with
  | .nil => exact .pure budget 0
  | .cons e rest =>
      refine (e.run_replaces he budget).bind fun budget => ?_
      have h := (rest.run_replaces he budget).under 1
      rwa [Nat.zero_add] at h

end

/-- What a run along an expression leaves on the stack, and that there is room for it. -/
theorem Expr.run_leaves (he : ∀ source, Disciplined (evaluate source)) (e : Expr)
    {budget budget' : Nat} {m n : Machine} (hr : m.stack.length ≤ m.settings.stackSize)
    (hn : e.run evaluate base spent budget m = .ok budget' n) :
    ∃ w, n.stack = w :: m.stack ∧ n.stack.length ≤ n.settings.stackSize := by
  obtain ⟨-, hs, vs, hv, hk⟩ := e.run_replaces he budget m _ n (Nat.zero_le _) hr hn
  obtain ⟨w, rfl⟩ := List.length_eq_one_iff.mp hv
  exact ⟨w, hk, hs⟩

end ExprEngine
