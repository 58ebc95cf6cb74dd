import ExprEngine.Proofs.Bytewise.Parser
import ExprEngine.Proofs.Machine.Steps
import ExprEngine.Proofs.Program.Folding

/-!
# Compiling every source safely

The compiler of bytes cuts every text that it needs out of its source, and makes of it what the
compiler of characters makes.  What is listed with an instruction or a complaint is a stretch of the
source from one place between characters to a later one; folding joins such stretches to one.

* `Bytewise.compile_eq`: both compilers agree, on the program and on the machine afterwards.
* `Expr.code_cuts`: the code of an expression lies where the expression does.
* `Bytewise.compile_cuts`: no text is cut where there is none, and no place is inside a character.
-/

namespace ExprEngine

open Grammar

variable {source : List Char}

/-! ### Places -/

/-- A place between two characters, as a number of bytes in front. -/
def Boundary (source : List Char) (n : Nat) : Prop :=
  ∃ before rest, source = before ++ rest ∧ n = Text.byteSize before

theorem Span.cuts_iff {s : Span} :
    s.Cuts source ↔ s.start ≤ s.stop ∧ Boundary source s.start ∧ Boundary source s.stop := by
  constructor
  · rintro ⟨before, text, rest, rfl, hp, hq⟩
    refine ⟨by omega, ⟨before, text ++ rest, rfl, hp⟩, before ++ text, rest, by simp, ?_⟩
    rw [Text.byteSize_append, hq]
  · rintro ⟨hle, ⟨a, as, ha, hp⟩, ⟨b, bs, hb, hq⟩⟩
    rcases List.prefix_or_prefix_of_prefix ⟨as, ha.symm⟩ ⟨bs, hb.symm⟩ with ⟨t, rfl⟩ | ⟨t, rfl⟩
    · exact ⟨a, t, bs, by rw [hb, List.append_assoc], hp, by rw [hq, Text.byteSize_append]⟩
    · -- the earlier place has no more in front of it, so both are the same
      rw [Text.byteSize_append] at hp
      exact ⟨b, [], bs, hb, by omega, by simp [hq]⟩

theorem Span.Cuts.join {a b : Span} (ha : a.Cuts source) (hb : b.Cuts source) :
    (a.join b).Cuts source := by
  rw [Span.cuts_iff] at ha hb ⊢
  obtain ⟨hle, hstart, hstop⟩ := ha
  obtain ⟨-, hstart', hstop'⟩ := hb
  refine ⟨Nat.le_trans (Nat.min_le_left _ _) (Nat.le_trans hle (Nat.le_max_left _ _)), ?_, ?_⟩
  · show Boundary source (min a.start b.start)
    rw [Nat.min_def]
    split <;> assumption
  · show Boundary source (max a.stop b.stop)
    rw [Nat.max_def]
    split <;> assumption

/-! ### Code -/

/-- What folding lists a constant with joins the places of the operands. -/
theorem foldLast?_cuts {op : Operator} {n start : Nat} {span : Span}
    {code folded : List (Instr Nat)}
    (hs : span.Cuts source) (hc : ∀ i ∈ code, i.span.Cuts source)
    (h : foldLast? op n span start code = some folded) : ∀ i ∈ folded, i.span.Cuts source := by
  have hjoin : ∀ (operands : List (Instr Nat)) (s : Span), s.Cuts source →
      (∀ i ∈ operands, i.span.Cuts source) →
      (operands.foldl (fun s i => s.join i.span) s).Cuts source := by
    intro operands
    induction operands with
    | nil => exact fun s hs _ => hs
    | cons i rest ih =>
        exact fun s hs hi => ih _ (hs.join (hi i List.mem_cons_self)) fun j hj =>
          hi j (List.mem_cons_of_mem i hj)
  rw [foldLast?_eq] at h
  simp only [Option.bind_eq_some_iff, Option.some.injEq] at h
  obtain ⟨_, -, vs, -, v, -, rfl⟩ := h
  intro i hi
  rcases List.mem_append.mp hi with hi | hi
  · exact hc i (List.mem_of_mem_take hi)
  · rw [List.mem_singleton.mp hi]
    exact hjoin _ _ hs fun j hj => hc j (List.mem_of_mem_drop hj)

theorem reduceCode_cuts {fold : Bool} {op : Operator} {n start : Nat} {span : Span}
    {code : List (Instr Nat)} (hs : span.Cuts source) (hc : ∀ i ∈ code, i.span.Cuts source) :
    ∀ i ∈ reduceCode fold op n span start code, i.span.Cuts source := by
  have hplain : ∀ i ∈ code ++ [⟨.reduce op n, span⟩], i.span.Cuts source := by
    intro i hi
    rcases List.mem_append.mp hi with hi | hi
    · exact hc i hi
    · rw [List.mem_singleton.mp hi]
      exact hs
  cases fold with
  | false => exact hplain
  | true =>
      rw [reduceCode_true]
      cases hf : foldLast? op n span start code with
      | none => exact hplain
      | some folded => exact foldLast?_cuts hs hc hf

theorem branch_cuts {kind : JumpKind} {target : Nat} {span : Span} (hs : span.Cuts source) :
    ∀ i ∈ branch kind target span, i.span.Cuts source := by
  simp [branch, hs]

mutual

/-- The code of an expression lies where the expression does. -/
theorem Expr.code_cuts (fold : Bool) : ∀ (e : Expr) (start : Nat), e.Cuts source →
    ∀ i ∈ e.code fold start, i.span.Cuts source
  | .leaf l span, _, h => List.forall_mem_singleton.mpr h
  | .fallback .., _, ⟨h₁, h₂, h₃⟩ => by
      simp only [Expr.code, List.forall_mem_append, List.forall_mem_cons]
      exact ⟨⟨h₁, branch_cuts h₂⟩, h₃, by simp⟩
  | .unary _ e _, _, ⟨he, hs⟩ => reduceCode_cuts hs (e.code_cuts fold _ he)
  | .binary _ a b _, _, ⟨⟨ha, hb⟩, hs⟩ =>
      reduceCode_cuts hs
        (List.forall_mem_append.mpr ⟨a.code_cuts fold _ ha, b.code_cuts fold _ hb⟩)
  | .sequence a b _, _, ⟨⟨ha, hb⟩, hs⟩ => by
      simp only [Expr.code, List.forall_mem_append, List.forall_mem_cons]
      exact ⟨a.code_cuts fold _ ha, hs, b.code_cuts fold _ hb⟩
  | .either a b _, _, ⟨⟨ha, hb⟩, hs⟩ | .both a b _, _, ⟨⟨ha, hb⟩, hs⟩
  | .orElse a b _, _, ⟨⟨ha, hb⟩, hs⟩ => by
      simp only [Expr.code, List.forall_mem_append]
      exact ⟨⟨a.code_cuts fold _ ha, branch_cuts hs⟩, b.code_cuts fold _ hb⟩
  | .choice c a b _ _, _, ⟨⟨hc, ha, hb⟩, hq, hs⟩ => by
      simp only [Expr.code, List.forall_mem_append]
      exact ⟨⟨⟨⟨c.code_cuts fold _ hc, branch_cuts hq⟩, a.code_cuts fold _ ha⟩, branch_cuts hs⟩,
        b.code_cuts fold _ hb⟩
  | .call e args _, _, ⟨⟨he, ha⟩, hs⟩ => by
      simp only [Expr.code, List.forall_mem_append]
      exact ⟨⟨e.code_cuts fold _ he, args.code_cuts fold _ ha⟩, List.forall_mem_singleton.mpr hs⟩

theorem Args.code_cuts (fold : Bool) : ∀ (args : Args) (start : Nat), args.Cuts source →
    ∀ i ∈ args.code fold start, i.span.Cuts source
  | .nil, _, _ => by simp [Args.code]
  | .cons e rest, _, ⟨he, hr⟩ =>
      List.forall_mem_append.mpr ⟨e.code_cuts fold _ he, rest.code_cuts fold _ hr⟩

end

namespace Bytewise

/-! ### Whole sources -/

/-- The expression that a source is, with the cursor behind it. -/
def whole (commands : Commands) (c : Cursor) : Except Rejection (Parsed Expr c) := do
  let p ← Grammar.sequence commands c
  if p.next.rest.isEmpty then return p else p.next.unexpected .endOfExpression

theorem parse_eq (commands : Commands) (source : String) :
    Grammar.parse commands source =
      match whole commands (.ofString source) with
      | .ok p => (.ok p.value, p.next.notes.reverse)
      | .error r => (.error r.error, r.notes.reverse) := by
  unfold Grammar.parse whole
  dsimp only [bind, Except.bind]
  cases Grammar.sequence commands (.ofString source) with
  | error r => rfl
  | ok p =>
      dsimp only
      cases p.next.rest.isEmpty <;> rfl

/-- Both compilers read a source to the end, or refuse it alike. -/
theorem whole_agrees (source : String) (m : Machine) :
    Agrees source.toList m (fun e _ => e.Cuts source.toList)
      (whole m.session.findCommand? (.ofString source)) parse { machine := m } := by
  have hc := Cursor.ofString_in source
  have hfuel : 32 * (Cursor.ofString source).rest.length + 22 <
      32 * (Text.bytes source.toList).length + 24 := by
    have hl := Text.length_le_byteSize source.toList
    rw [Text.length_bytes]
    show 32 * source.toList.length + 22 < _
    omega
  unfold whole parse
  refine .step rfl (.bind ((simulated source.toList m _).sequence _ hc hfuel) ?_)
  intro p hin hcuts
  refine .step (ahead_at hin) ?_
  rw [Text.isEmpty_bytes]
  split
  · exact .ok rfl hin hcuts
  · exact unexpected_agrees hin _

theorem told_eq (m : Machine) (notes : List Note) :
    m.told notes = notes.reverse.foldl Machine.remark m :=
  List.foldl_reverse.symm

/-- Cutting always finds a text, and what is compiled is what the compiler of characters makes. -/
theorem compile_eq (source : String) (m : Machine) :
    compile source m =
      some ((Program.compile m.settings.optimize m.session.findCommand? source).1,
        m.remarked source) := by
  have h := whole_agrees source m
  unfold compile Machine.remarked Program.compile
  rw [parse_eq]
  cases hw : whole m.session.findCommand? (.ofString source) with
  | ok p =>
      rw [hw] at h
      obtain ⟨hy, -, -⟩ := h
      rw [hy, progress, told_eq]
      rfl
  | error r =>
      rw [hw] at h
      obtain ⟨⟨pos, hy⟩, -⟩ := h
      rw [hy, told_eq]
      rfl

/-- Every source compiles or is refused with no text cut out of range or inside a character,
whatever the settings and the session are; and the places of all instructions, folded ones too, and
of a complaint are stretches of the source between characters. -/
theorem compile_cuts (source : String) (m : Machine) :
    ∃ r m', compile source m = some (r, m') ∧ Machine.compile source m = .ok r m' ∧
      match r with
      | .ok p => ∀ i ∈ p.code, i.span.Cuts source.toList
      | .error e => e.span.Cuts source.toList := by
  refine ⟨_, _, compile_eq source m, Machine.compile_apply source m, ?_⟩
  have h := whole_agrees source m
  unfold Program.compile
  rw [parse_eq]
  cases hw : whole m.session.findCommand? (.ofString source) with
  | ok p =>
      rw [hw] at h
      intro i hi
      exact p.value.code_cuts _ 0 h.2.2 i (by simpa using hi)
  | error r =>
      rw [hw] at h
      exact h.2

end Bytewise

end ExprEngine
