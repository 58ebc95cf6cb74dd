import ExprEngine.Proofs.Grammar.Building
import ExprEngine.Proofs.Machine.Contents
import ExprEngine.Proofs.Machine.Operators
import ExprEngine.Proofs.Number.Times
import ExprEngine.Proofs.Program.Folding

/-!
# Times in programs

The constants of a program are numbers and texts of its source, names, values to call, and what
operators come to that are computed beforehand.  Of these, times stand in number literals, where
they are normal, and folding makes normal times of them.

* `Operator.Storable.normal`: what operators store is normal where operands and variables are.
* `Program.normal_of_compile`: the constants of every program that the compiler makes.
-/

namespace ExprEngine

/-! ### Operators -/

namespace Operator

variable {args : List Value} {s : Session} {v : Value}

theorem Storable.normal (h : Storable args s v) (ha : ∀ v ∈ args, v.Normal)
    (hs : s.Holds Value.Normal) : v.Normal := by
  cases h with
  | made h => exact h.normal
  | operand hm _ => exact ha v hm
  | «variable» x hx => exact hs.lookup hx

/-- What an operator is computed to beforehand. -/
theorem normal_of_reduceConstants {op : Operator} (ha : ∀ v ∈ args, v.Normal)
    (h : op.reduceConstants args = some v) : v.Normal := by
  have hr : Reduced (fun _ => True) args {} (op.reduce args {}) := reduces (fun _ _ => trivial) {}
  unfold reduceConstants at h
  generalize op.reduce args {} = r at h hr
  cases hr with
  | halted => cases h
  | computed _ hv =>
      dsimp only at h
      split at h
      · cases h
        exact hv.normal
      · cases h
  | stored _ hv =>
      dsimp only at h
      split at h
      · cases h
        exact hv.normal ha .empty
      · cases h

end Operator

/-! ### Expressions -/

mutual

/-- The constants of an expression are normal where they are times. -/
def Expr.Normal : Expr → Prop
  | .leaf (.value v) _ => v.Normal
  | .leaf .. | .fallback .. => True
  | .unary _ e _ => e.Normal
  | .binary _ a b _ | .sequence a b _ | .either a b _ | .both a b _ | .orElse a b _ =>
    a.Normal ∧ b.Normal
  | .choice c a b _ _ => c.Normal ∧ a.Normal ∧ b.Normal
  | .call e args _ => e.Normal ∧ args.Normal

/-- The constants of arguments are normal where they are times. -/
def Args.Normal : Args → Prop
  | .nil => True
  | .cons e rest => e.Normal ∧ rest.Normal

end

theorem Args.normal_ofList {args : List Expr} (h : ∀ e ∈ args, e.Normal) :
    (Args.ofList args).Normal := by
  induction args with
  | nil => trivial
  | cons e rest ih =>
      exact ⟨h e List.mem_cons_self, ih fun d hd => h d (List.mem_cons_of_mem e hd)⟩

theorem Expr.normal_withTrailing {e : Expr} (h : e.Normal) {v : Value} (hv : v.Normal) :
    (e.withTrailing v).Normal := by
  match e with
  | .leaf l span => exact hv
  | .sequence a b span | .either a b span | .both a b span | .orElse a b span =>
      exact ⟨h.1, b.normal_withTrailing h.2 hv⟩
  | .choice c a b question colon => exact ⟨h.1, h.2.1, b.normal_withTrailing h.2.2 hv⟩
  | .fallback .. | .unary .. | .binary .. | .call .. => exact h

namespace Grammar

theorem normal_of_resolveCallee {commands : Commands} {e e' : Expr} {callee : Callee}
    (he : e.Normal) (h : resolveCallee commands e = .ok (callee, e')) : e'.Normal := by
  unfold resolveCallee at h
  split at h
  · cases h
  · split at h
    · cases h
      exact e.normal_withTrailing he trivial
    · split at h
      · split at h
        · cases h
          exact e.normal_withTrailing he trivial
        · cases h
      · cases h
        exact he

/-- The grammar builds expressions with normal constants. -/
theorem builds_normal (commands : Commands) : Builds commands Expr.Normal where
  number {_ n _} hn _ := by
    cases n with
    | decimal t => exact Literal.normal_of_parse hn
    | int | real => trivial
  text _ _ := trivial
  name _ _ := trivial
  param _ _ := trivial
  body _ _ := trivial
  output _ _ := trivial
  fallback _ _ _ _ _ := trivial
  unary he := he
  binary ha hb := ⟨ha, hb⟩
  sequence ha hb := ⟨ha, hb⟩
  either ha hb := ⟨ha, hb⟩
  both ha hb := ⟨ha, hb⟩
  choice hc ha hb := ⟨hc, ha, hb⟩
  orElse hc hb := ⟨hc, hb⟩
  call he hr hargs _ := ⟨normal_of_resolveCallee he hr, Args.normal_ofList hargs⟩

end Grammar

/-! ### Code -/

/-- The instructions push no time that is not normal. -/
def NormalCode (code : List (Instr Nat)) : Prop :=
  ∀ i ∈ code, ∀ v, i.op = .push v → v.Normal

namespace NormalCode

variable {code more : List (Instr Nat)}

theorem append_iff : NormalCode (code ++ more) ↔ NormalCode code ∧ NormalCode more :=
  List.forall_mem_append

theorem append (h : NormalCode code) (k : NormalCode more) : NormalCode (code ++ more) :=
  append_iff.mpr ⟨h, k⟩

theorem cons {i : Instr Nat} (hi : ∀ v, i.op = .push v → v.Normal) (h : NormalCode code) :
    NormalCode (i :: code) :=
  List.forall_mem_cons.mpr ⟨hi, h⟩

theorem single {i : Instr Nat} (hi : ∀ v, i.op = .push v → v.Normal) : NormalCode [i] :=
  cons hi fun _ hj => absurd hj List.not_mem_nil

theorem branch (kind : JumpKind) (target : Nat) (span : Span) :
    NormalCode (branch kind target span) :=
  cons (fun _ => nofun) (single fun _ => nofun)

/-- The constants at the end of code. -/
theorem of_mapM_constant? (h : NormalCode code) {op : Operator} {vs : List Value}
    (hc : code.mapM (Instr.constant? op) = some vs) : ∀ v ∈ vs, v.Normal := by
  induction code generalizing vs with
  | nil =>
      cases hc
      exact fun v hv => absurd hv List.not_mem_nil
  | cons i rest ih =>
      simp only [List.mapM_cons, Option.bind_eq_bind, Option.bind_eq_some_iff] at hc
      obtain ⟨v, hi, ws, hr, hp⟩ := hc
      cases hp
      intro u hu
      rcases List.mem_cons.mp hu with rfl | hu
      · unfold Instr.constant? at hi
        split at hi
        · next w hw =>
          split at hi
          · cases hi
            exact h i List.mem_cons_self _ hw
          · cases hi
        · cases hi
      · exact ih (fun j hj => h j (List.mem_cons_of_mem i hj)) hr u hu

/-- An operator behind its operands, computed beforehand or not. -/
theorem reduceCode (h : NormalCode code) (fold : Bool) (op : Operator) (n : Nat) (span : Span)
    (start : Nat) : NormalCode (reduceCode fold op n span start code) := by
  have unfolded : NormalCode (code ++ [⟨.reduce op n, span⟩]) := h.append (single fun _ => nofun)
  unfold ExprEngine.reduceCode
  cases fold with
  | false => exact unfolded
  | true =>
      dsimp only
      rw [if_pos rfl]
      cases hf : foldLast? op n span start code with
      | none => exact unfolded
      | some new =>
          simp only [foldLast?_eq, Option.bind_eq_some_iff] at hf
          obtain ⟨-, -, vs, hm, u, hu, hn⟩ := hf
          cases hn
          have hv := of_mapM_constant? (fun i hi => h i (List.mem_of_mem_drop hi)) hm
          refine append (fun i hi => h i (List.mem_of_mem_take hi)) (single fun w hw => ?_)
          cases hw
          exact Operator.normal_of_reduceConstants hv hu

end NormalCode

mutual

/-- The code of an expression pushes its constants, or what becomes of them. -/
theorem Expr.normal_code {e : Expr} (h : e.Normal) (fold : Bool) (start : Nat) :
    NormalCode (e.code fold start) := by
  match e with
  | .leaf l span =>
      refine .single fun v hv => ?_
      cases l with
      | value w => cases hv; exact h
      | param | body | output => cases hv
  | .fallback subject text subjectSpan headSpan textSpan =>
      refine .append (.cons (fun v hv => ?_) (.branch _ _ _)) (.single fun v hv => ?_)
      · cases subject <;> cases hv
      · cases hv
        trivial
  | .unary op e span => exact .reduceCode (e.normal_code h fold start) fold _ _ _ _
  | .binary op a b span =>
      exact .reduceCode (.append (a.normal_code h.1 fold _) (b.normal_code h.2 fold _)) fold _ _ _ _
  | .sequence a b span =>
      exact .append (a.normal_code h.1 fold _) (.cons (fun _ => nofun) (b.normal_code h.2 fold _))
  | .either a b span | .both a b span | .orElse a b span =>
      exact .append (.append (a.normal_code h.1 fold _) (.branch _ _ _)) (b.normal_code h.2 fold _)
  | .choice c a b question colon =>
      have hc := c.normal_code h.1 fold start
      exact .append (.append (.append (.append hc (.branch _ _ _)) (a.normal_code h.2.1 fold _))
        (.branch _ _ _)) (b.normal_code h.2.2 fold _)
  | .call e args span =>
      exact .append (.append (e.normal_code h.1 fold _) (args.normal_code h.2 fold _))
        (.single fun _ => nofun)

theorem Args.normal_code {args : Args} (h : args.Normal) (fold : Bool) (start : Nat) :
    NormalCode (args.code fold start) := by
  match args with
  | .nil => exact fun i hi => absurd hi List.not_mem_nil
  | .cons e rest => exact .append (e.normal_code h.1 fold _) (rest.normal_code h.2 fold _)

end

/-! ### Programs -/

/-- No constant of the program is a time that is not normal. -/
def Program.Normal (p : Program) : Prop :=
  ∀ (pc : Nat) i, p.code[pc]? = some i → ∀ v, i.op = .push v → v.Normal

/-- **The constants of every program** that the compiler makes are normal where they are times,
folded or not. -/
theorem Program.normal_of_compile {optimize : Bool} {commands : Grammar.Commands}
    {source : String} {p : Program} (h : (Program.compile optimize commands source).1 = .ok p) :
    p.Normal := by
  unfold Program.compile at h
  cases hp : (Grammar.parse commands source).1 with
  | error e => simp [hp, Except.map] at h
  | ok e =>
      simp only [hp, Except.map, Except.ok.injEq] at h
      subst h
      intro pc i hi
      have he : e.Normal := (Grammar.builds_normal commands).of_parse hp
      refine e.normal_code he optimize 0 i (List.mem_of_getElem? (i := pc) ?_)
      simpa using hi

end ExprEngine
