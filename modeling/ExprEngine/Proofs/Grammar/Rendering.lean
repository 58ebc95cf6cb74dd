import ExprEngine.Proofs.Grammar.Callees
import ExprEngine.Proofs.Grammar.Formula
import ExprEngine.Proofs.Program.Blocks

/-!
# Expressions that render formulas

An expression renders a formula if its code, with no operator computed beforehand, is the operations
of the formula, wherever it starts.  How the expression was written, and at which place, is of no
matter.

* `Expr.ops_withTrailing`: a name at the end of an expression is its last operation.
* `Renders`: the same operations, and the same name at the end.
* `Renders.call`: a callee that is found renders the callee of the formula.
-/

namespace ExprEngine

open Grammar

/-! ### Operations of expressions -/

/-- The operations of an expression that starts at index `start`. -/
def Expr.ops (start : Nat) (e : Expr) : List (Op Nat) :=
  (e.code false start).map Instr.op

/-- The operations of arguments in order. -/
def Args.ops (start : Nat) (args : Args) : List (Op Nat) :=
  (args.code false start).map Instr.op

namespace Expr

variable (start : Nat) (a b c : Expr) (span colon : Span)

theorem ops_unary (op : Unary) :
    (unary op a span).ops start = a.ops start ++ [.reduce op.operator 1] := by
  simp [ops, code]

theorem ops_binary (op : Binary) :
    (binary op a b span).ops start =
      a.ops start ++ b.ops (start + (a.ops start).length) ++ [.reduce op.operator 2] := by
  simp [ops, code]

theorem ops_sequence :
    (sequence a b span).ops start =
      a.ops start ++ .pop 1 :: b.ops (start + (a.ops start).length + 1) := by
  simp [ops, code]

theorem ops_either :
    (either a b span).ops start = a.ops start ++
      .jump .ifTrue (start + (a.ops start).length + 2 +
        (b.ops (start + (a.ops start).length + 2)).length) ::
      .pop 1 :: b.ops (start + (a.ops start).length + 2) := by
  simp [ops, code, branch]

theorem ops_both :
    (both a b span).ops start = a.ops start ++
      .jump .ifFalse (start + (a.ops start).length + 2 +
        (b.ops (start + (a.ops start).length + 2)).length) ::
      .pop 1 :: b.ops (start + (a.ops start).length + 2) := by
  simp [ops, code, branch]

theorem ops_choice :
    (choice c a b span colon).ops start =
      let condition := c.ops start
      let yes := a.ops (start + condition.length + 2)
      let otherwise := start + condition.length + 2 + yes.length + 1
      let no := b.ops (otherwise + 1)
      condition ++ .jump .ifFalse otherwise :: .pop 1 :: yes ++
        .jump .always (otherwise + 1 + no.length) :: .pop 1 :: no := by
  simp [ops, code, branch]

theorem ops_orElse :
    (orElse c b span).ops start = c.ops start ++
      .jump .ifTrue (start + (c.ops start).length + 2 +
        (b.ops (start + (c.ops start).length + 2)).length) ::
      .pop 1 :: b.ops (start + (c.ops start).length + 2) := by
  simp [ops, code, branch]

theorem ops_call (args : Args) :
    (call a args span).ops start = a.ops start ++ args.ops (start + (a.ops start).length) ++
      [.call (args.length + 1)] := by
  simp [ops, Args.ops, code]

/-- A name at the end of an expression is its last operation, and gives way to any value. -/
theorem ops_withTrailing {e : Expr} {x : String} (h : e.trailingName? = some x) (start : Nat) :
    ∃ init w, w.name? = some x ∧ e.ops start = init ++ [.push w] ∧
      ∀ v, (e.withTrailing v).ops start = init ++ [.push v] := by
  match e with
  | .leaf (.value w) span => exact ⟨[], w, h, rfl, fun _ => rfl⟩
  | .sequence a b span =>
      obtain ⟨init, w, hw, hb, hv⟩ := b.ops_withTrailing h (start + (a.ops start).length + 1)
      refine ⟨a.ops start ++ .pop 1 :: init, w, hw, ?_, fun v => ?_⟩
      · simp [ops_sequence, hb]
      · simp [withTrailing, ops_sequence, hv]
  | .either a b span =>
      obtain ⟨init, w, hw, hb, hv⟩ := b.ops_withTrailing h (start + (a.ops start).length + 2)
      refine ⟨a.ops start ++ .jump .ifTrue (start + (a.ops start).length + 2 + (init.length + 1)) ::
        .pop 1 :: init, w, hw, ?_, fun v => ?_⟩
      · simp [ops_either, hb]
      · simp [withTrailing, ops_either, hv]
  | .both a b span =>
      obtain ⟨init, w, hw, hb, hv⟩ := b.ops_withTrailing h (start + (a.ops start).length + 2)
      refine ⟨a.ops start ++
        .jump .ifFalse (start + (a.ops start).length + 2 + (init.length + 1)) :: .pop 1 :: init,
        w, hw, ?_, fun v => ?_⟩
      · simp [ops_both, hb]
      · simp [withTrailing, ops_both, hv]
  | .orElse c b span =>
      obtain ⟨init, w, hw, hb, hv⟩ := b.ops_withTrailing h (start + (c.ops start).length + 2)
      refine ⟨c.ops start ++ .jump .ifTrue (start + (c.ops start).length + 2 + (init.length + 1)) ::
        .pop 1 :: init, w, hw, ?_, fun v => ?_⟩
      · simp [ops_orElse, hb]
      · simp [withTrailing, ops_orElse, hv]
  | .choice c a b question colon =>
      let condition := c.ops start
      let yes := a.ops (start + condition.length + 2)
      let otherwise := start + condition.length + 2 + yes.length + 1
      obtain ⟨init, w, hw, hb, hv⟩ := b.ops_withTrailing h (otherwise + 1)
      refine ⟨condition ++ .jump .ifFalse otherwise :: .pop 1 :: yes ++
        .jump .always (otherwise + 1 + (init.length + 1)) :: .pop 1 :: init, w, hw, ?_, fun v => ?_⟩
      · simp [ops_choice, hb, otherwise, yes, condition]
      · simp [withTrailing, ops_choice, hv, otherwise, yes, condition]

end Expr

/-! ### Rendering -/

/-- A name at the end of a formula is its last operation. -/
theorem Formula.getLast?_ops {commands : Commands} {f : Formula} {x : String}
    (h : f.trailingName? = some x) (start : Nat) :
    (f.ops commands start).getLast? = some (.push (.name x)) := by
  match f with
  | .name y =>
      cases h
      rfl
  | .joined .comma a b | .joined .either a b | .joined .both a b | .orElse a b | .choice _ a b =>
      simp [ops, List.getLast?_cons, List.getLast?_append, b.getLast?_ops h]

/-- The expression has the operations of the formula, and the name at its end. -/
structure Renders (commands : Commands) (f : Formula) (e : Expr) : Prop where
  ops : ∀ start, e.ops start = f.ops commands start
  name : e.trailingName? = f.trailingName?

/-- The expressions have the operations of the formulas. -/
structure RendersAll (commands : Commands) (fs : Formulas) (es : List Expr) : Prop where
  ops : ∀ start, (Args.ofList es).ops start = fs.ops commands start
  length : es.length = fs.length

section

variable {commands : Commands} {f g h : Formula} {a b c : Expr}

namespace Renders

theorem signed (op : Unary) (ha : Renders commands f a) (span : Span) :
    Renders commands (.signed op f) (.unary op a span) where
  ops start := by simp [Expr.ops_unary, Formula.ops, ha.ops]
  name := rfl

theorem operator (op : Binary) (ha : Renders commands f a) (hb : Renders commands g b)
    (span : Span) : Renders commands (.joined (.operator op) f g) (.binary op a b span) where
  ops start := by simp [Expr.ops_binary, Formula.ops, ha.ops, hb.ops]
  name := rfl

theorem equals (ha : Renders commands f a) (hb : Renders commands g b) (span : Span) :
    Renders commands (.joined .equals f g) (.binary .assign a b span) where
  ops start := by simp [Expr.ops_binary, Formula.ops, ha.ops, hb.ops, Binary.operator]
  name := rfl

theorem comma (ha : Renders commands f a) (hb : Renders commands g b) (span : Span) :
    Renders commands (.joined .comma f g) (.sequence a b span) where
  ops start := by simp [Expr.ops_sequence, Formula.ops, ha.ops, hb.ops]
  name := hb.name

theorem either (ha : Renders commands f a) (hb : Renders commands g b) (span : Span) :
    Renders commands (.joined .either f g) (.either a b span) where
  ops start := by simp [Expr.ops_either, Formula.ops, ha.ops, hb.ops]
  name := hb.name

theorem both (ha : Renders commands f a) (hb : Renders commands g b) (span : Span) :
    Renders commands (.joined .both f g) (.both a b span) where
  ops start := by simp [Expr.ops_both, Formula.ops, ha.ops, hb.ops]
  name := hb.name

theorem choice (hc : Renders commands h c) (ha : Renders commands f a) (hb : Renders commands g b)
    (question colon : Span) :
    Renders commands (.choice h f g) (.choice c a b question colon) where
  ops start := by simp [Expr.ops_choice, Formula.ops, hc.ops, ha.ops, hb.ops]
  name := hb.name

theorem orElse (hc : Renders commands h c) (hb : Renders commands g b) (question : Span) :
    Renders commands (.orElse h g) (.orElse c b question) where
  ops start := by simp [Expr.ops_orElse, Formula.ops, hc.ops, hb.ops]
  name := hb.name

/-- A callee that may be called is found, takes the arguments, and renders the call with them. -/
theorem call {x : String} {args : Formulas} {es : List Expr} (ha : Renders commands f a)
    (hx : f.trailingName? = some x) (hc : MayCall commands x args.length)
    (hs : RendersAll commands args es) (span : Span) :
    ∃ callee e, resolveCallee commands a = .ok (callee, e) ∧ callee.countError? es.length = none ∧
      Renders commands (.call f args) (.call e (.ofList es) span) := by
  have hn : a.trailingName? = some x := ha.name.trans hx
  -- whatever value is found, it takes the place of the name
  have renders : ∀ e, (∀ start init w, a.ops start = init ++ [.push w] →
      e.ops start = init ++ [.push (calledBy commands x)]) →
      Renders commands (.call f args) (.call e (.ofList es) span) := by
    intro e he
    refine ⟨fun start => ?_, rfl⟩
    obtain ⟨init, w, -, hi, -⟩ := a.ops_withTrailing hn start
    have hf := ha.ops start
    rw [Expr.ops_call, he start init w hi, hs.ops, Args.length_ofList, hs.length, Formula.ops, hx,
      ← hf, hi]
    simp
  have value : ∀ v, calledBy commands x = v →
      Renders commands (.call f args) (.call (a.withTrailing v) (.ofList es) span) := by
    intro v hv
    refine renders _ fun start init w hi => ?_
    obtain ⟨init', w', -, hi', ho⟩ := a.ops_withTrailing hn start
    obtain ⟨rfl, -⟩ := List.append_inj' (hi.symm.trans hi') rfl
    rw [ho, hv]
  unfold MayCall at hc
  unfold calledBy at value renders
  unfold resolveCallee
  rw [hn]
  dsimp only
  cases hb : Builtin.find? x with
  | some k =>
      simp only [hb] at hc value ⊢
      refine ⟨_, _, rfl, ?_, value _ rfl⟩
      simp [Callee.countError?, hs.length, hc]
  | none =>
      simp only [hb] at hc value renders ⊢
      cases hk : commands x with
      | some k =>
          simp only [hk] at hc value ⊢
          rw [if_pos hc.1]
          refine ⟨_, _, rfl, ?_, value _ rfl⟩
          simp [Callee.countError?, hs.length, hc.2]
      | none =>
          simp only [hk] at renders ⊢
          refine ⟨_, _, rfl, rfl, renders a fun start init w hi => ?_⟩
          -- a name that is called late stays where it is
          have hl := @Formula.getLast?_ops commands _ _ hx start
          rw [← ha.ops, hi, List.getLast?_concat] at hl
          rw [hi, Option.some.inj hl]

end Renders

namespace RendersAll

theorem nil : RendersAll commands .nil [] :=
  ⟨fun _ => rfl, rfl⟩

theorem cons {fs : Formulas} {es : List Expr} (ha : Renders commands f a)
    (hs : RendersAll commands fs es) : RendersAll commands (.cons f fs) (a :: es) where
  ops start := by
    have ho : ∀ n, (Args.ofList (a :: es)).ops n =
        a.ops n ++ (Args.ofList es).ops (n + (a.ops n).length) := by
      intro n
      simp [Args.ops, Expr.ops, Args.ofList, Args.code]
    simp [ho, Formulas.ops, ha.ops, hs.ops]
  length := congrArg (· + 1) hs.length

end RendersAll

end

end ExprEngine
