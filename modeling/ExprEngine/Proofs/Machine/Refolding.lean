import ExprEngine.Proofs.Machine.Direct
import ExprEngine.Proofs.Program.Constants

/-!
# Runs with folded constants

Two machines that differ in nothing but the setting that folds constants (`Twin`) go through an
expression side by side, the one that folds through the folded expression.  What they have computed
is the same after each part; the machine that folds has run fewer instructions and its stack has
been lower, so that it reaches no limit before the other.

Runs keep up with each other part by part (`KeepsUp`).  The one part that is not the same is an
operator that has been computed: the run that does not fold pushes its operands and takes them
again, the other pushes the result (`KeepsUp.unary`, `KeepsUp.binary`).

* `Expr.run_folded`: the run along the folded expression keeps up with that along the expression.
* `folding_preserves`: within the limits of the machine, folding makes no difference to an
  evaluation.
-/

namespace ExprEngine

open Machine

namespace Machine

/-- The machine with constants folded. -/
def folding (m : Machine) : Machine :=
  { m with settings := { m.settings with optimize := true } }

/-- The second machine is the first but folds constants, and their stack has a height at least. -/
structure Twin (height : Nat) (m n : Machine) : Prop where
  eq : n = m.folding
  optimize : m.settings.optimize = false
  height : height ≤ m.stack.length

/-- Twins of which the second has at least as many instructions left. -/
abbrev Ahead (height b c : Nat) (m n : Machine) : Prop :=
  b ≤ c ∧ Twin height m n

variable {α : Type} {base height low b c : Nat} {m n : Machine}
  {evaluate evaluate' : String → Eval Value} {spent : Halt}

theorem Twin.mono (h : Twin height m n) (hl : low ≤ height) : Twin low m n :=
  ⟨h.eq, h.optimize, Nat.le_trans hl h.height⟩

theorem Twin.reframes (height : Nat) : Reframes (Twin height) where
  session h := by rw [h.eq]; rfl
  host h := by rw [h.eq]; rfl
  random h := by rw [h.eq]; rfl
  setSession s h := ⟨by rw [h.eq]; rfl, h.optimize, h.height⟩
  setRandom r h := ⟨by rw [h.eq]; rfl, h.optimize, h.height⟩

theorem Twin.stack_eq (h : Twin height m n) : n.stack = m.stack := by
  rw [h.eq]; rfl

theorem Twin.restack (h : Twin height m n) (stack : List Value) (hl : low ≤ stack.length) :
    Twin low { m with stack } { n with stack } :=
  ⟨by rw [h.eq]; rfl, h.optimize, hl⟩

theorem Twin.lift (hb : base ≤ height) {β γ : Type} {Q : β → γ → Machine → Machine → Prop}
    {r : EStateM.Result Halt Machine β} {t : EStateM.Result Halt Machine γ}
    (h : Agree Limited (Twin height) Q m r t) : Agree Limited (Twin base) Q m r t :=
  h.mono (fun _ _ h => h.mono hb) fun _ _ _ _ h => h

/-! ### The stack -/

theorem Twin.push (h : Twin height m n) (v : Value) :
    Agree Limited (Twin base) (fun _ _ => Twin (height + 1)) m (push v m) (push v n) := by
  have hs : n.settings.stackSize = m.settings.stackSize := by rw [h.eq]; rfl
  rw [push_apply, push_apply, hs, h.stack_eq]
  by_cases hl : m.settings.stackSize ≤ m.stack.length
  · rw [if_pos hl]
    exact .excused (.halt rfl)
  · rw [if_neg hl, if_neg hl]
    exact .ok (Nat.le_refl _) (h.restack _ (Nat.succ_le_succ h.height))

theorem Twin.popMany (hb : base ≤ height) {k : Nat} (h : Twin (height + k) m n) :
    Agree Limited (Twin base) (Same (Twin height)) m (popMany base k m) (popMany base k n) := by
  have hl := h.height
  have hk : ¬m.stack.length - base < k := by omega
  rw [popMany_apply, popMany_apply, h.stack_eq, if_neg hk, if_neg hk]
  refine .ok (Nat.le_refl _) ⟨rfl, h.restack _ ?_⟩
  rw [List.length_drop]
  omega

/-- What a step comes to and pushes. -/
theorem Twin.pushes (hb : base ≤ height) {x y : Eval Value}
    (hx : Agree Limited (Twin height) (Same (Twin height)) m (x m) (y n)) :
    Agree Limited (Twin base) (fun _ _ => Twin (height + 1)) m
      ((x >>= fun v => Machine.push v >>= fun _ => pure (none : Option Nat)) m)
      ((y >>= fun v => Machine.push v >>= fun _ => pure (none : Option Nat)) n) := by
  refine (Twin.lift hb hx).bind fun v w m n h => ?_
  obtain ⟨rfl, h⟩ := h
  exact (h.push v).bind fun _ _ _ _ h => .ok (Nat.le_refl _) h

/-- Values are taken from the stack, and what a step makes of them takes their place. -/
theorem Twin.replaces (hb : base ≤ height) {k : Nat} (h : Twin (height + k) m n)
    {x y : List Value → Eval Value}
    (hx : ∀ vs m n, Twin height m n →
      Agree Limited (Twin height) (Same (Twin height)) m (x vs m) (y vs n)) :
    Agree Limited (Twin base) (fun _ _ => Twin (height + 1)) m
      ((Machine.popMany base k >>= fun vs =>
        x vs >>= fun v => Machine.push v >>= fun _ => pure (none : Option Nat)) m)
      ((Machine.popMany base k >>= fun vs =>
        y vs >>= fun v => Machine.push v >>= fun _ => pure (none : Option Nat)) n) := by
  refine (h.popMany hb).bind fun vs ws m n h => ?_
  obtain ⟨rfl, h⟩ := h
  exact Twin.pushes hb (hx vs m n h)

/-! ### Runs that keep up -/

/-- The second run keeps up with the first: where both take `j` values from the stacks of twins and
leave `k`, they come to twins, and the second has as many instructions left if it had so before. -/
def KeepsUp (base j k : Nat) (x y : Nat → Eval Nat) : Prop :=
  ∀ ⦃height b c m n⦄, base ≤ height → b ≤ c → Twin (height + j) m n →
    Agree Limited (Twin base) (Ahead (height + k)) m (x b m) (y c n)

namespace KeepsUp

variable {i j k : Nat} {x y x' y' : Nat → Eval Nat}

theorem bind (h : KeepsUp base i j x y) (h' : KeepsUp base j k x' y') :
    KeepsUp base i k (fun b => x b >>= x') (fun c => y c >>= y') :=
  fun _ _ _ _ _ hb hc hm => (h hb hc hm).bind fun _ _ _ _ h => h' hb h.1 h.2

/-- Values below those that are taken stay. -/
theorem above (h : KeepsUp base j k x y) (i : Nat) : KeepsUp base (j + i) (k + i) x y := by
  intro height b c m n hb hc hm
  rw [Nat.add_comm _ i, ← Nat.add_assoc] at hm ⊢
  exact h (Nat.le_add_right_of_le hb) hc hm

/-- An operation keeps up with itself if its step does. -/
theorem runOp (hl : spent.limits) {op : Op Nat}
    (h : ∀ ⦃height m n⦄, base ≤ height → Twin (height + j) m n →
      Agree Limited (Twin base) (fun _ _ => Twin (height + k)) m (step evaluate base op m)
        (step evaluate' base op n)) :
    KeepsUp base j k (runOp evaluate base spent op) (Machine.runOp evaluate' base spent op) := by
  intro height b c m n hb hc hm
  cases b with
  | zero => exact .excused (.halt hl)
  | succ b =>
      cases c with
      | zero => exact absurd hc (Nat.not_succ_le_zero b)
      | succ c =>
          exact (h hb hm).bind fun _ _ _ _ h => .ok (Nat.le_refl _) ⟨Nat.le_of_succ_le_succ hc, h⟩

theorem leaf (hl : spent.limits) (l : Leaf) :
    KeepsUp base 0 1 (Machine.runOp evaluate base spent l.op)
      (Machine.runOp evaluate' base spent l.op) := by
  refine .runOp hl fun height m n hb h => ?_
  rw [step_leaf, step_leaf]
  exact Twin.pushes hb (.of_mild (Twin.reframes height) h l.eval_mild)

theorem subject (hl : spent.limits) (s : Subject) :
    KeepsUp base 0 1 (Machine.runOp evaluate base spent s.op)
      (Machine.runOp evaluate' base spent s.op) := by
  refine .runOp hl fun height m n hb h => ?_
  rw [step_subject, step_subject]
  exact Twin.pushes hb (.of_mild (Twin.reframes height) h s.eval_mild)

theorem drop (hl : spent.limits) :
    KeepsUp base 1 0 (Machine.runOp evaluate base spent (.pop 1))
      (Machine.runOp evaluate' base spent (.pop 1)) :=
  .runOp hl fun _ _ _ hb h => (h.popMany hb).bind fun _ _ _ _ h => .ok (Nat.le_refl _) h.2

theorem reduce (hl : spent.limits) (op : Operator) (k : Nat) :
    KeepsUp base k 1 (Machine.runOp evaluate base spent (.reduce op k))
      (Machine.runOp evaluate' base spent (.reduce op k)) :=
  .runOp hl fun height _ _ hb h => h.replaces hb fun _ m _ h =>
    .of_blind (Twin.reframes height) h (.inSession _) (inSession_calm (op.orderly_reduce _) m)

theorem call (hl : spent.limits)
    (he : ∀ height source m n, Twin height m n →
      Agree Exceeds (Twin height) (Same (Twin height)) m (evaluate source m) (evaluate' source n))
    (k : Nat) :
    KeepsUp base k 1 (Machine.runOp evaluate base spent (.call k))
      (Machine.runOp evaluate' base spent (.call k)) :=
  .runOp hl fun height _ _ hb h => h.replaces hb fun vs _ _ h =>
    callValue_agrees (Twin.reframes height) (he height) h vs

/-! ### Branches -/

theorem runJump (hl : spent.limits) (hb : base ≤ height) (hc : b ≤ c) (h : Twin (height + 1) m n)
    (kind : JumpKind) :
    Agree Limited (Twin base) (fun r t m n => r.1 = t.1 ∧ Ahead (height + 1) r.2 t.2 m n) m
      (runJump base spent kind b m) (runJump base spent kind c n) := by
  cases b with
  | zero => exact .excused (.halt hl)
  | succ b =>
      cases c with
      | zero => exact absurd hc (Nat.not_succ_le_zero b)
      | succ c =>
          obtain ⟨v, rest, hm⟩ :=
            List.exists_cons_of_length_pos (Nat.lt_of_lt_of_le (Nat.succ_pos _) h.height)
          have hr : base ≤ rest.length := by
            have := h.height
            rw [hm] at this
            exact Nat.le_trans hb (Nat.le_of_succ_le_succ this)
          have hx : Agree Limited (Twin (height + 1)) (Same (Twin (height + 1))) m
              (jumps kind base m) (jumps kind base n) := by
            rw [jumps_of_stack _ hm hr, jumps_of_stack _ (h.stack_eq.trans hm) hr]
            exact .of_mild (Twin.reframes _) h (decided_mild v kind)
          exact (Twin.lift (Nat.le_succ_of_le hb) hx).bind fun _ _ _ _ h =>
            .ok (Nat.le_refl _) ⟨h.1, Nat.le_of_succ_le_succ hc, h.2⟩

theorem branch (hl : spent.limits) (kind : JumpKind) (h : KeepsUp base 0 1 x y) :
    KeepsUp base 1 1 (runBranch evaluate base spent kind x)
      (runBranch evaluate' base spent kind y) := by
  intro height b c m n hb hc hm
  refine (runJump hl hb hc hm kind).bind fun (taken, b) (taken', c) m n hm => ?_
  obtain ⟨rfl, hc, hm⟩ := hm
  cases taken with
  | true => exact .ok (Nat.le_refl _) ⟨hc, hm⟩
  | false => exact ((drop hl).bind h) hb hc hm

theorem choice (hl : spent.limits) (h : KeepsUp base 0 1 x y) (h' : KeepsUp base 0 1 x' y') :
    KeepsUp base 1 1 (runChoice evaluate base spent x x')
      (runChoice evaluate' base spent y y') := by
  intro height b c m n hb hc hm
  refine (runJump hl hb hc hm .ifFalse).bind fun (taken, b) (taken', c) m n hm => ?_
  obtain ⟨rfl, hc, hm⟩ := hm
  cases taken with
  | true => exact ((drop hl).bind h') hb hc hm
  | false =>
      refine (drop hl hb hc hm).bind fun b c m n hm => ?_
      refine (h hb hm.1 hm.2).bind fun b c m n hm => ?_
      exact (runJump hl hb hm.1 hm.2 .always).bind fun _ _ _ _ h => .ok (Nat.le_refl _) h.2

end KeepsUp

end Machine

/-! ### Folded constants -/

section

variable (evaluate : String → Eval Value) (base : Nat) (spent : Halt)

/-- A run along a tree that ends in a constant pushes that constant last; another constant at the
end is pushed in its place. -/
theorem Expr.run_of_tail? {e : Expr} {v : Value} {s : Span} (h : e.tail? = some (v, s)) :
    ∃ x : Nat → Eval Nat,
      (∀ b, e.run evaluate base spent b = x b >>= runOp evaluate base spent (.push v)) ∧
      ∀ u t b, (e.withTail u t).run evaluate base spent b =
        x b >>= runOp evaluate base spent (.push u) := by
  match e with
  | .leaf (.value w) span =>
      cases h
      exact ⟨pure, fun b => (pure_bind ..).symm, fun u t b => (pure_bind ..).symm⟩
  | .sequence a e comma =>
      obtain ⟨x, hx, hw⟩ := e.run_of_tail? h
      refine ⟨fun b => do
        let b ← a.run evaluate base spent b
        let b ← runOp evaluate base spent (.pop 1) b
        x b, fun b => ?_, fun u t b => ?_⟩
      · simp only [Expr.run, hx, bind_assoc]
      · simp only [Expr.withTail, Expr.run, hw, bind_assoc]

end

namespace Machine

variable {base height b c : Nat} {m n : Machine} {evaluate evaluate' : String → Eval Value}
  {spent : Halt}

/-- Whether a value can be pushed does not hang on the value. -/
theorem runOp_push (evaluate : String → Eval Value) (base : Nat) (hl : spent.limits) (b : Nat)
    (m : Machine) :
    (∃ k : Halt, k.limits ∧ ∀ v, runOp evaluate base spent (.push v) b m = .error k m) ∨
      m.stack.length < m.settings.stackSize ∧
        ∀ v, runOp evaluate base spent (.push v) b m =
          .ok (b - 1) { m with stack := v :: m.stack } := by
  cases b with
  | zero => exact .inl ⟨spent, hl, fun v => rfl⟩
  | succ b =>
      by_cases hs : m.settings.stackSize ≤ m.stack.length
      · refine .inl ⟨EvalError.stackOverflow.halt, rfl, fun v => ?_⟩
        rw [runOp_push_succ, if_pos hs]
      · refine .inr ⟨Nat.lt_of_not_le hs, fun v => ?_⟩
        rw [runOp_push_succ, if_neg hs, Nat.add_sub_cancel]

/-- An operator whose operands have been pushed comes to where the other run pushes what it has been
computed to. -/
theorem reduce_computed (hl : spent.limits) (hb : base ≤ height) (hc : b ≤ c) {op : Operator}
    (vs : List Value) {u : Value} (hu : op.computed? vs = some u)
    (h : Twin (height + vs.length) m { n with stack := vs.reverse ++ n.stack })
    (hs : n.stack.length < n.settings.stackSize) :
    Agree Limited (Twin base) (Ahead (height + 1)) m
      (runOp evaluate base spent (.reduce op vs.length) b m)
      (.ok c { n with stack := u :: n.stack }) := by
  have hm : m.stack = vs.reverse ++ n.stack := h.stack_eq.symm
  have hn : n.stack.length < m.settings.stackSize :=
    Nat.lt_of_lt_of_eq hs (congrArg (·.settings.stackSize) h.eq)
  -- the operands lie above the height
  have hh : height ≤ n.stack.length := by
    have := h.height
    rw [hm, List.length_append, List.length_reverse] at this
    omega
  cases b with
  | zero => exact .excused (.halt hl)
  | succ b =>
      -- the operands are taken, and what they were computed to is pushed, for which there was room
      have hrun : runOp evaluate base spent (.reduce op vs.length) (b + 1) m =
          .ok b { m with stack := u :: n.stack } := by
        rw [runOp_reduce_succ hm rfl (Nat.le_trans hb hh) hn, Operator.reduce_of_computed? hu]
      rw [hrun]
      refine .ok (Nat.le_refl _) ⟨Nat.le_of_succ_le hc, ?_⟩
      exact h.restack (u :: n.stack) (Nat.succ_le_succ hh)

namespace KeepsUp

/-- A run along an expression that goes on keeps up with one that pushes another constant instead,
if it comes to that constant from the one at the end of the expression. -/
theorem retail (hl : spent.limits) {e e' : Expr}
    (he : KeepsUp base 0 1 (e.run evaluate base spent) (e'.run evaluate' base spent)) {v u : Value}
    {s : Span} (ht : e'.tail? = some (v, s)) (t : Span) {f : Nat → Eval Nat}
    (hf : ∀ ⦃height b c : Nat⦄ ⦃m n : Machine⦄, base ≤ height → b ≤ c →
      n.stack.length < n.settings.stackSize → Twin (height + 1) m { n with stack := v :: n.stack } →
        Agree Limited (Twin base) (Ahead (height + 1)) m (f b m)
          (.ok c { n with stack := u :: n.stack })) :
    KeepsUp base 0 1 (fun b => e.run evaluate base spent b >>= f)
      ((e'.withTail u t).run evaluate' base spent) := by
  intro height b c m n hb hc hm
  obtain ⟨x, hx, hw⟩ := Expr.run_of_tail? evaluate' base spent ht
  have ha := he hb hc hm
  rw [hx] at ha
  rw [hw]
  cases ex : x c n with
  | error k n' =>
      rw [bind_of_error ex] at ha ⊢
      exact ha.halted f
  | ok c n' =>
      rw [bind_of_ok ex] at ha ⊢
      rcases runOp_push evaluate' base hl c n' with ⟨k, -, hp⟩ | ⟨hs, hp⟩
      · rw [hp] at ha ⊢
        exact ha.halted f
      · rw [hp] at ha ⊢
        exact ha.okThen fun b m' h => hf hb h.1 hs h.2

/-- An operator in front of an operand, or what it is computed to. -/
theorem unary (hl : spent.limits) {e e' : Expr}
    (he : KeepsUp base 0 1 (e.run evaluate base spent) (e'.run evaluate' base spent)) (op : Unary)
    (span : Span) :
    KeepsUp base 0 1 ((Expr.unary op e span).run evaluate base spent)
      ((Expr.unaryFolded op e' span).run evaluate' base spent) := by
  have kept : KeepsUp base 0 1 ((Expr.unary op e span).run evaluate base spent)
      ((Expr.unary op e' span).run evaluate' base spent) := he.bind (reduce hl _ 1)
  unfold Expr.unaryFolded
  split
  · next v s ht =>
    split
    · next u hu =>
      exact he.retail hl ht _ fun height b c m n hb hc hs hm =>
        reduce_computed hl hb hc [v] hu hm hs
    · exact kept
  · exact kept

/-- An operator between two operands, or what it is computed to. -/
theorem binary (hl : spent.limits) {e e' f f' : Expr}
    (he : KeepsUp base 0 1 (e.run evaluate base spent) (e'.run evaluate' base spent))
    (hf : KeepsUp base 0 1 (f.run evaluate base spent) (f'.run evaluate' base spent)) (op : Binary)
    (span : Span) :
    KeepsUp base 0 1 ((Expr.binary op e f span).run evaluate base spent)
      ((Expr.binaryFolded op e' f' span).run evaluate' base spent) := by
  have kept : KeepsUp base 0 1 ((Expr.binary op e f span).run evaluate base spent)
      ((Expr.binary op e' f' span).run evaluate' base spent) :=
    he.bind ((hf.above 1).bind (reduce hl _ 2))
  unfold Expr.binaryFolded
  split
  · next v s w t ht =>
    split
    · next u hu =>
      refine he.retail hl ht _ fun height b c m n hb hc hs hm => ?_
      -- the run that folds does not push the second operand; where it could not, neither could
      -- the other
      have hw : Agree Limited (Twin base) (Ahead (height + 2)) m (f.run evaluate base spent b m)
          (Machine.runOp evaluate' base spent (.push w) (c + 1) { n with stack := v :: n.stack }) :=
        hf (Nat.le_succ_of_le hb) (Nat.le_succ_of_le hc) hm
      rcases runOp_push evaluate' base hl (c + 1) { n with stack := v :: n.stack } with
        ⟨k, hk, hp⟩ | ⟨-, hp⟩
      · rw [hp] at hw
        exact .excused (.bind (hw.limited hk) _)
      · rw [hp] at hw
        exact hw.okThen fun b m h => reduce_computed hl hb h.1 [v, w] hu h.2 hs
    · exact kept
  · exact kept

end KeepsUp

end Machine

/-! ### Runs along folded expressions -/

section

variable {base : Nat} {evaluate evaluate' : String → Eval Value} {spent : Halt}

mutual

/-- **The run along the folded expression** keeps up with the run along the expression. -/
theorem Expr.run_folded (e : Expr) (hl : spent.limits)
    (he : ∀ height source m n, Twin height m n →
      Agree Exceeds (Twin height) (Same (Twin height)) m (evaluate source m) (evaluate' source n)) :
    KeepsUp base 0 1 (e.run evaluate base spent) (e.folded.run evaluate' base spent) := by
  match e with
  | .leaf l span => exact .leaf hl l
  | .fallback subject text _ _ _ =>
      refine (KeepsUp.subject hl subject).bind (.branch hl .ifNonEmpty ?_)
      exact .leaf hl (.value (.text text))
  | .unary op e span => exact (e.run_folded hl he).unary hl op span
  | .binary op a b span => exact (a.run_folded hl he).binary hl (b.run_folded hl he) op span
  | .sequence a b span =>
      exact (a.run_folded hl he).bind ((KeepsUp.drop hl).bind (b.run_folded hl he))
  | .either a b span | .orElse a b span =>
      exact (a.run_folded hl he).bind (.branch hl .ifTrue (b.run_folded hl he))
  | .both a b span => exact (a.run_folded hl he).bind (.branch hl .ifFalse (b.run_folded hl he))
  | .choice c a b question colon =>
      exact (c.run_folded hl he).bind (.choice hl (a.run_folded hl he) (b.run_folded hl he))
  | .call e args span =>
      refine (e.run_folded hl he).bind (((args.run_folded hl he).above 1).bind ?_)
      rw [args.length_folded]
      exact .call hl he _

/-- Along folded arguments. -/
theorem Args.run_folded (args : Args) (hl : spent.limits)
    (he : ∀ height source m n, Twin height m n →
      Agree Exceeds (Twin height) (Same (Twin height)) m (evaluate source m) (evaluate' source n)) :
    KeepsUp base 0 args.length (args.run evaluate base spent)
      (args.folded.run evaluate' base spent) := by
  match args with
  | .nil => exact fun _ _ _ _ _ _ hc hm => .ok (Nat.le_refl _) ⟨hc, hm⟩
  | .cons e rest =>
      exact (e.run_folded hl he).bind ((rest.run_folded hl he).above 1)

end

end

/-! ### Executions and evaluations -/

namespace Machine

variable {base height : Nat} {m n : Machine}

theorem Twin.unwind (h : Twin base m n) (e : EvalError) :
    Twin base (m.unwind base e) (n.unwind base e) := by
  refine ⟨by rw [h.eq]; rfl, h.optimize, ?_⟩
  have hl := h.height
  simp only [Machine.unwind, List.length_drop]
  omega

/-- A run that leaves more than one value. -/
theorem finished_of_many {k : Nat} (h : m.stack.length - base = k + 2) :
    finished base (.ok () m) = .error (.fault (.valuesLeft (k + 2))) m := by
  unfold Machine.finished
  simp only [h]

/-- The ends of executions of twins. -/
theorem Twin.finished {r t : EStateM.Result Halt Machine Unit}
    (h : Agree Limited (Twin base) (fun _ _ => Twin (base + 1)) m r t) :
    Agree Exceeds (Twin base) (Same (Twin base)) m (finished base r) (finished base t) := by
  cases h with
  | excused h => exact .excused (h.finished base)
  | @ok u v m' n hm h =>
      -- at least one value is left above the height that was found
      obtain ⟨v, rest, hs⟩ :=
        List.exists_cons_of_length_pos (Nat.lt_of_lt_of_le (Nat.succ_pos _) h.height)
      have hl := h.height
      rw [hs, List.length_cons] at hl
      by_cases hr : rest.length = base
      · rw [← hr, finished_of_single hs, finished_of_single (h.stack_eq.trans hs)]
        exact .ok hm ⟨rfl, h.restack _ (Nat.le_refl _)⟩
      -- more than one value is the same defect for both
      · obtain ⟨k, hk⟩ : ∃ k, m'.stack.length - base = k + 2 :=
          ⟨rest.length - base - 1, by rw [hs, List.length_cons]; omega⟩
        rw [finished_of_many hk, finished_of_many (h.stack_eq ▸ hk)]
        exact .error hm fun hk => absurd rfl (hk _)
  | @error k m' n hm h =>
      cases k with
      | failure f =>
          cases f with
          | compile e => exact .error hm h
          | eval e =>
              refine .error ?_ fun _ => (h fun _ => nofun).unwind e
              rw [limitReports_unwind]
              exact Nat.le_trans hm (Nat.le_add_right _ _)
      | fault f => exact .error hm h
      | exhausted => exact .error hm h

theorem Twin.remarked (h : Twin height m n) (source : String) :
    Twin height (remarked source m) (remarked source n) := by
  unfold Machine.remarked
  rw [Program.compile_snd, Program.compile_snd, (Twin.reframes height).session h]
  obtain ⟨_, _, _, hr⟩ := remarks_apply m (Grammar.parse m.session.findCommand? source).2
  have hm := hr m.settings m.stack rfl
  have hn := hr m.folding.settings m.stack rfl
  rw [h.eq, hm]
  exact ⟨hn, h.optimize, h.height⟩

/-- **Executions** of the code of an expression and of its folded code. -/
theorem Twin.execute {evaluate evaluate' : String → Eval Value}
    (he : ∀ height source m n, Twin height m n →
      Agree Exceeds (Twin height) (Same (Twin height)) m (evaluate source m) (evaluate' source n))
    {e : Expr} {p q : Program} (hp : p.code = (e.code false 0).toArray)
    (hq : q.code = (e.code true 0).toArray) (h : Twin height m n) :
    Agree Exceeds (Twin height) (Same (Twin height)) m (execute evaluate p m)
      (execute evaluate' q n) := by
  rw [e.code_folded] at hq
  have hb : budget n.settings = budget m.settings := by rw [h.eq]; rfl
  -- an execution keeps above the stack that it finds, however high that is
  have hm : Twin (m.stack.length + 0) m n := ⟨h.eq, h.optimize, Nat.le_refl _⟩
  rw [execute_apply, execute_apply, h.stack_eq, hb, e.runFrom_program hp,
    e.folded.runFrom_program hq]
  have hr := e.run_folded (budget_limits m.settings) he (Nat.le_refl _)
    (Nat.le_refl (budget m.settings).1) hm
  refine (Twin.finished ?_).mono (fun _ _ h' => h'.mono h.height)
    fun _ _ _ _ h' => ⟨h'.1, h'.2.mono h.height⟩
  exact hr.bind fun _ _ _ _ h => .ok (Nat.le_refl _) h.2

/-- **Every evaluation** goes alike with constants folded. -/
theorem Twin.evaluate (depth : Nat) (source : String) (h : Twin height m n) :
    Agree Exceeds (Twin height) (Same (Twin height)) m (evaluate depth source m)
      (evaluate depth source n) := by
  induction depth generalizing height source m n with
  | zero => exact .excused (.inr ⟨rfl, Nat.le_refl _⟩)
  | succ depth ih =>
      have hm := (remarked_calm source m).limitReports_le
      have hn : n.settings.optimize = true := by rw [h.eq]; rfl
      have hr := h.remarked source
      rw [Machine.evaluate, evaluateWith_apply, evaluateWith_apply, Program.compile_fst,
        Program.compile_fst, h.optimize, hn, (Twin.reframes height).session h]
      cases (Grammar.parse m.session.findCommand? source).1 with
      | ok e =>
          refine Agree.of_le ?_ (·.of_le hm) hm
          exact Twin.execute (fun _ source _ _ h => ih source h) rfl rfl hr
      | error e =>
          refine .error ?_ fun _ => ?_
          · rw [Session.limitReports_report]
            exact Nat.le_trans hm (Nat.le_add_right _ _)
          · rw [(Twin.reframes height).session hr]
            exact (Twin.reframes height).setSession _ hr

/-- **Folding constants preserves behaviour.**  An evaluation that stays within the limits of the
machine, and whose evaluations inside do, comes with constants folded to the same value or failure
and the same machine, with its session, its reports, its output and its random numbers. -/
theorem folding_preserves (depth : Nat) (source : String) {m : Machine}
    (ho : m.settings.optimize = false) (hl : ¬Exceeds m (evaluate depth source m)) :
    SameOutcome (moved folding (evaluate depth source m)) (evaluate depth source m.folding) := by
  have h : Twin 0 m m.folding := ⟨rfl, ho, Nat.zero_le _⟩
  exact (h.evaluate depth source).outcome (fun _ _ h => h.eq) hl

/-- A sum of three numbers, whose code is a single instruction where constants are folded. -/
def threeAdded : Program :=
  ⟨"1 + 2 + 4", #[⟨.push (.int 1), ⟨0, 1⟩⟩, ⟨.push (.int 2), ⟨4, 5⟩⟩, ⟨.reduce .add 2, ⟨2, 3⟩⟩,
    ⟨.push (.int 4), ⟨8, 9⟩⟩, ⟨.reduce .add 2, ⟨6, 7⟩⟩]⟩

theorem folding_preserves_threeAdded :
    (∃ n, evaluate 1 threeAdded.source unfolding = .ok (.int 7) n) ∧
      (Program.compile true (fun _ => none) threeAdded.source).1.toOption.map (·.code) =
        some #[⟨.push (.int 7), ⟨0, 9⟩⟩] ∧
      SameOutcome (moved folding (evaluate 1 threeAdded.source unfolding))
        (evaluate 1 threeAdded.source unfolding.folding) := by
  have hc : (Program.compile false unfolding.session.findCommand? threeAdded.source).1 =
      .ok threeAdded := of_toOption (by decide +kernel)
  have hr : remarked threeAdded.source unfolding = unfolding :=
    congrArg (List.foldl remark unfolding) (show (Program.compile false
      unfolding.session.findCommand? threeAdded.source).2 = [] from by decide +kernel)
  have hv : ∃ n, evaluate 1 threeAdded.source unfolding = .ok (.int 7) n := by
    rw [evaluate, evaluateWith_apply, show unfolding.settings.optimize = false from rfl, hc, hr]
    exact ⟨_, rfl⟩
  refine ⟨hv, by decide +kernel, folding_preserves 1 threeAdded.source rfl ?_⟩
  obtain ⟨n, hn⟩ := hv
  rw [hn]
  exact id

end Machine

end ExprEngine
