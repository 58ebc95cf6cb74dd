import ExprEngine.Proofs.Grammar.Building

/-!
# Callees

Where the grammar lets values into a tree that are there to be called.  A function or a command
stands at the end of the callee of a call and nowhere else, and the call gives it as many arguments
as it takes.

Which values are looked at, and how many arguments they take, is a `Calling`: functions with the
numbers of their table, or functions and commands alike.

* `Expr.callee?`: the value to call that an expression may come to.
* `Expr.Checked`: what holds of every tree that the grammar reads.
* `Grammar.plain_of_parse`: that it does.
-/

namespace ExprEngine

/-- The function that a value is. -/
def Value.function? (v : Value) : Option Builtin :=
  match v.payload with
  | .function b => some b
  | _ => none

/-- The command that a value is. -/
def Value.command? (v : Value) : Option Command :=
  match v.payload with
  | .command c => some c
  | _ => none

/-- Some of the values that are there to be called, what tells them apart, and how many arguments
they take: at least the numbers that the grammar lets pass. -/
structure Calling (κ : Type) where
  of? : Value → Option κ
  Takes : κ → Nat → Prop
  operand : ∀ v, v.function? = none → v.command? = none → of? v = none
  function : ∀ b k n, of? ⟨.function b, false⟩ = some k → b.accepts n → Takes k n
  command : ∀ c k n, of? ⟨.command c, false⟩ = some k → n ≤ 1 → Takes k n

namespace Calling

/-- Functions, which take what their table says. -/
def functions : Calling Builtin where
  of? := Value.function?
  Takes b n := b.accepts n
  operand _ h _ := h
  function _ _ _ h hn := by cases h; exact hn
  command _ _ _ h _ := nomatch h

/-- Functions and commands, whatever they take. -/
def all : Calling Unit where
  of? v := if v.function?.isSome || v.command?.isSome then some () else none
  Takes _ _ := True
  operand v h k := by simp [h, k]
  function _ _ _ _ _ := trivial
  command _ _ _ _ _ := trivial

end Calling

section

variable {κ : Type} (C : Calling κ)

/-- The value to call at the end of an expression, which is the only one that it may come to. -/
def Expr.callee? : Expr → Option κ
  | .leaf (.value v) _ => C.of? v
  | .sequence _ e _ | .either _ e _ | .both _ e _ | .choice _ _ e _ _ | .orElse _ e _ => e.callee?
  | _ => none

mutual

/-- Values to call stand at the end of callees only, and take the arguments that they are given. -/
def Expr.Checked : Expr → Prop
  | .leaf .. | .fallback .. => True
  | .unary _ e _ => e.Checked ∧ e.callee? C = none
  | .binary _ a b _ => (a.Checked ∧ a.callee? C = none) ∧ b.Checked ∧ b.callee? C = none
  | .sequence a b _ | .either a b _ | .both a b _ | .orElse a b _ =>
    (a.Checked ∧ a.callee? C = none) ∧ b.Checked
  | .choice c a b _ _ =>
    (c.Checked ∧ c.callee? C = none) ∧ (a.Checked ∧ a.callee? C = none) ∧ b.Checked
  | .call e args _ =>
    (e.Checked ∧ ∀ k, e.callee? C = some k → C.Takes k args.length) ∧ args.Checked

/-- No argument comes to a value to call. -/
def Args.Checked : Args → Prop
  | .nil => True
  | .cons e rest => (e.Checked ∧ e.callee? C = none) ∧ rest.Checked

end

/-- A checked expression that comes to no value to call. -/
def Expr.Plain (e : Expr) : Prop :=
  e.Checked C ∧ e.callee? C = none

end

variable {κ : Type} {C : Calling κ}

/-- An operand that is there to be worked with. -/
theorem Expr.plain_value {v : Value} (hf : v.function? = none) (hc : v.command? = none)
    (span : Span) : (Expr.leaf (.value v) span).Plain C :=
  ⟨trivial, C.operand v hf hc⟩

theorem Args.checked_ofList {args : List Expr} (h : ∀ e ∈ args, e.Plain C) :
    (Args.ofList args).Checked C := by
  induction args with
  | nil => trivial
  | cons e rest ih =>
      exact ⟨h e List.mem_cons_self, ih fun d hd => h d (List.mem_cons_of_mem e hd)⟩

/-- The name at the end of an expression gives way to any value. -/
theorem Expr.checked_withTrailing {e : Expr} {x : String} (h : e.Plain C)
    (hx : e.trailingName? = some x) (v : Value) :
    (e.withTrailing v).Checked C ∧ (e.withTrailing v).callee? C = C.of? v := by
  obtain ⟨hc, hf⟩ := h
  match e with
  | .leaf (.value w) span => exact ⟨trivial, rfl⟩
  | .sequence a b span | .either a b span | .both a b span | .orElse a b span =>
      obtain ⟨hb, hv⟩ := checked_withTrailing ⟨hc.2, hf⟩ hx v
      exact ⟨⟨hc.1, hb⟩, hv⟩
  | .choice c a b question colon =>
      obtain ⟨hb, hv⟩ := checked_withTrailing ⟨hc.2.2, hf⟩ hx v
      exact ⟨⟨hc.1, hc.2.1, hb⟩, hv⟩

namespace Grammar

/-- The callee that the grammar finds is checked, and takes as many arguments as are counted. -/
theorem checked_of_resolveCallee {commands : Commands} {e e' : Expr} {callee : Callee}
    (he : e.Plain C) (h : resolveCallee commands e = .ok (callee, e')) :
    e'.Checked C ∧
      ∀ n, callee.countError? n = none → ∀ k, e'.callee? C = some k → C.Takes k n := by
  unfold resolveCallee at h
  split at h
  · cases h
  · next x hx =>
    split at h
    · next b _ =>
      cases h
      obtain ⟨hc, hf⟩ := e.checked_withTrailing he hx ⟨.function b, false⟩
      refine ⟨hc, fun n hn k hk => C.function b k n (hf ▸ hk) ?_⟩
      unfold Callee.countError? at hn
      simpa using hn
    · split at h
      · next c _ =>
        split at h
        · cases h
          obtain ⟨hc, hf⟩ := e.checked_withTrailing he hx ⟨.command c, false⟩
          refine ⟨hc, fun n hn k hk => C.command c k n (hf ▸ hk) ?_⟩
          unfold Callee.countError? at hn
          simpa using hn
        · cases h
      · cases h
        refine ⟨he.1, fun n _ b hb => ?_⟩
        rw [he.2] at hb
        cases hb

/-- The grammar builds checked trees that come to no value to call. -/
theorem builds_plain (commands : Commands) : Builds commands (Expr.Plain C) where
  number {_ n _} _ span := by
    refine Expr.plain_value ?_ ?_ span <;> cases n <;> rfl
  text _ span := Expr.plain_value rfl rfl span
  name _ span := Expr.plain_value rfl rfl span
  param _ _ := ⟨trivial, rfl⟩
  body _ _ := ⟨trivial, rfl⟩
  output _ _ := ⟨trivial, rfl⟩
  fallback _ _ _ _ _ := ⟨trivial, rfl⟩
  unary he := ⟨he, rfl⟩
  binary ha hb := ⟨⟨ha, hb⟩, rfl⟩
  -- of two branches the last decides what the tree comes to
  sequence ha hb := ⟨⟨ha, hb.1⟩, hb.2⟩
  either ha hb := ⟨⟨ha, hb.1⟩, hb.2⟩
  both ha hb := ⟨⟨ha, hb.1⟩, hb.2⟩
  choice hc ha hb := ⟨⟨hc, ha, hb.1⟩, hb.2⟩
  orElse hc hb := ⟨⟨hc, hb.1⟩, hb.2⟩
  -- the arguments are counted against the callee that was found
  call he hr hargs hn := by
    obtain ⟨hc, hf⟩ := checked_of_resolveCallee he hr
    refine ⟨⟨⟨hc, ?_⟩, Args.checked_ofList hargs⟩, rfl⟩
    rw [Args.length_ofList]
    exact hf _ hn

/-- **What the grammar reads is checked** and comes to no function. -/
theorem plain_of_parse {commands : Commands} {source : String} {e : Expr}
    (h : (parse commands source).1 = .ok e) : e.Plain C :=
  (builds_plain commands).of_parse h

end Grammar

end ExprEngine
