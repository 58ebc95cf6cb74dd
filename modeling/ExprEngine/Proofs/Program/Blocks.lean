import ExprEngine.Program.Code

/-!
# Blocks of code

The code of an expression is a block: it is not empty, its jumps lead no further than right behind
it (`Expr.target_le`), and it does not end in two constants (`Expr.not_two_constants`).  So an
operator that finds constants in front of itself finds the whole of its operands.
-/

namespace ExprEngine

theorem Program.compile_fst (optimize : Bool) (commands : Grammar.Commands) (source : String) :
    (Program.compile optimize commands source).1 =
      (Grammar.parse commands source).1.map fun e => ⟨source, (e.code optimize 0).toArray⟩ :=
  rfl

theorem Program.compile_snd (optimize : Bool) (commands : Grammar.Commands) (source : String) :
    (Program.compile optimize commands source).2 = (Grammar.parse commands source).2 :=
  rfl

theorem Program.compile_of_parse {commands : Grammar.Commands} {source : String}
    {tree : Except CompileError Expr} {notes : List Note}
    (h : Grammar.parse commands source = (tree, notes)) (optimize : Bool) :
    Program.compile optimize commands source =
      (tree.map fun e => ⟨source, (e.code optimize 0).toArray⟩, notes) := by
  refine Prod.ext ?_ ?_
  · rw [compile_fst, h]
  · rw [compile_snd, h]

@[simp] theorem reduceCode_false (op : Operator) (n : Nat) (span : Span) (start : Nat)
    (code : List (Instr Nat)) :
    reduceCode false op n span start code = code ++ [⟨.reduce op n, span⟩] :=
  rfl

@[simp] theorem length_branch (kind : JumpKind) (target : Nat) (span : Span) :
    (branch kind target span).length = 2 :=
  rfl

theorem Expr.code_ne_nil (e : Expr) (start : Nat) : e.code false start ≠ [] := by
  cases e <;> simp [Expr.code, branch]

theorem Expr.length_code_pos (e : Expr) (start : Nat) : 0 < (e.code false start).length :=
  List.length_pos_iff.mpr (e.code_ne_nil start)

/-! ### Code in place -/

/-- `P` holds of every instruction of code that starts at an index. -/
def Each (P : Nat → Instr Nat → Prop) : (start : Nat) → List (Instr Nat) → Prop
  | _, [] => True
  | start, i :: rest => P start i ∧ Each P (start + 1) rest

namespace Each

variable {P Q : Nat → Instr Nat → Prop} {start : Nat} {code more : List (Instr Nat)}

theorem append_iff :
    Each P start (code ++ more) ↔ Each P start code ∧ Each P (start + code.length) more := by
  induction code generalizing start with
  | nil => simp [Each]
  | cons i rest ih => simp [Each, ih, and_assoc, Nat.add_assoc, Nat.add_comm 1]

theorem mono (h : Each P start code) (hp : ∀ k i, P k i → Q k i) : Each Q start code := by
  induction code generalizing start with
  | nil => trivial
  | cons i rest ih => exact ⟨hp _ _ h.1, ih h.2⟩

theorem get (h : Each P start code) {k : Nat} {i : Instr Nat} (hi : code[k]? = some i) :
    P (start + k) i := by
  induction code generalizing start k with
  | nil => cases hi
  | cons j rest ih =>
      cases k with
      | zero =>
          cases hi
          exact h.1
      | succ k =>
          have := ih h.2 hi
          rwa [Nat.add_assoc, Nat.add_comm 1] at this

theorem of_get (h : ∀ k i, code[k]? = some i → P (start + k) i) : Each P start code := by
  induction code generalizing start with
  | nil => trivial
  | cons i rest ih =>
      refine ⟨h 0 i rfl, ih fun k j hj => ?_⟩
      have := h (k + 1) j hj
      rwa [Nat.add_comm k 1, ← Nat.add_assoc] at this

end Each

/-! ### Jumps -/

/-- No jump of the code leads behind `stop`. -/
def JumpsUpTo (stop : Nat) (code : List (Instr Nat)) : Prop :=
  ∀ i ∈ code, ∀ t, i.op.target? = some t → t ≤ stop

namespace JumpsUpTo

variable {stop stop' : Nat} {code more : List (Instr Nat)}

theorem mono (h : JumpsUpTo stop code) (hs : stop ≤ stop') : JumpsUpTo stop' code :=
  fun i hi t ht => Nat.le_trans (h i hi t ht) hs

theorem append (h : JumpsUpTo stop code) (k : JumpsUpTo stop more) :
    JumpsUpTo stop (code ++ more) := by
  intro i hi t ht
  rcases List.mem_append.mp hi with hi | hi
  · exact h i hi t ht
  · exact k i hi t ht

theorem cons {i : Instr Nat} (h : ∀ t, i.op.target? = some t → t ≤ stop) (k : JumpsUpTo stop more) :
    JumpsUpTo stop (i :: more) := by
  intro j hj t ht
  rcases List.mem_cons.mp hj with rfl | hj
  · exact h t ht
  · exact k j hj t ht

theorem of_cons {i : Instr Nat} (h : JumpsUpTo stop (i :: more)) : JumpsUpTo stop more :=
  fun j hj => h j (List.mem_cons_of_mem i hj)

theorem of_append_right (h : JumpsUpTo stop (code ++ more)) : JumpsUpTo stop more :=
  fun i hi => h i (List.mem_append_right _ hi)

theorem of_append_left (h : JumpsUpTo stop (code ++ more)) : JumpsUpTo stop code :=
  fun i hi => h i (List.mem_append_left _ hi)

/-- A branch in the code leads no further. -/
theorem of_branch {kind : JumpKind} {target : Nat} {span : Span}
    (h : JumpsUpTo stop (ExprEngine.branch kind target span)) : target ≤ stop :=
  h _ List.mem_cons_self _ rfl

theorem single {op : Op Nat} {span : Span} (h : ∀ t, op.target? = some t → t ≤ stop) :
    JumpsUpTo stop [⟨op, span⟩] := by
  intro i hi t ht
  rw [List.mem_singleton.mp hi] at ht
  exact h t ht

theorem branch (kind : JumpKind) {target : Nat} (span : Span) (h : target ≤ stop) :
    JumpsUpTo stop (branch kind target span) := by
  intro i hi t ht
  simp only [ExprEngine.branch, List.mem_cons, List.not_mem_nil, or_false] at hi
  rcases hi with rfl | rfl
  · cases ht
    exact h
  · cases ht

end JumpsUpTo

mutual

/-- The jumps of a block lead no further than right behind it. -/
theorem Expr.target_le (e : Expr) (start : Nat) :
    JumpsUpTo (start + (e.code false start).length) (e.code false start) := by
  match e with
  | .leaf l span =>
      refine .single fun t ht => ?_
      cases l <;> cases ht
  | .fallback subject text _ _ _ =>
      refine .append (.cons (fun t ht => ?_) (.branch _ _ ?_)) (.single fun t ht => by cases ht)
      · cases subject <;> cases ht
      · simp [Expr.code, branch]
  | .unary op e span =>
      refine .append ((e.target_le start).mono ?_) (.single fun t ht => by cases ht)
      simp [Expr.code]
  | .binary op a b span =>
      refine .append (.append ((a.target_le start).mono ?_) ((b.target_le _).mono ?_))
        (.single fun t ht => by cases ht) <;>
      simp [Expr.code]
      omega
  | .sequence a b span =>
      refine .append ((a.target_le start).mono ?_)
        (.cons (fun t ht => by cases ht) ((b.target_le _).mono ?_)) <;>
      simp [Expr.code]
      omega
  | .either a b span | .both a b span | .orElse a b span =>
      refine .append (.append ((a.target_le start).mono ?_) (.branch _ _ ?_))
        ((b.target_le _).mono ?_) <;>
      simp [Expr.code, branch] <;> omega
  | .choice c a b question colon =>
      refine .append (.append (.append (.append ((c.target_le start).mono ?_) (.branch _ _ ?_))
        ((a.target_le _).mono ?_)) (.branch _ _ ?_)) ((b.target_le _).mono ?_) <;>
      simp [Expr.code, branch] <;> omega
  | .call e args span =>
      refine .append (.append ((e.target_le start).mono ?_) ((args.target_le _).mono ?_))
        (.single fun t ht => by cases ht) <;>
      simp [Expr.code]
      omega

theorem Args.target_le (args : Args) (start : Nat) :
    JumpsUpTo (start + (args.code false start).length) (args.code false start) := by
  match args with
  | .nil => exact fun i hi => absurd hi List.not_mem_nil
  | .cons e rest =>
      refine .append ((e.target_le start).mono ?_) ((rest.target_le _).mono ?_) <;>
      simp [Args.code]
      omega

end

/-! ### Ends -/

/-- The last instruction of the code pushes a constant. -/
def EndsInConstant (code : List (Instr Nat)) : Prop :=
  ∃ v span, code.getLast? = some ⟨.push v, span⟩

namespace EndsInConstant

variable {code : List (Instr Nat)}

theorem append_iff {more : List (Instr Nat)} (h : more ≠ []) :
    EndsInConstant (code ++ more) ↔ EndsInConstant more := by
  obtain ⟨i, hi⟩ := Option.ne_none_iff_exists'.mp (mt List.getLast?_eq_none_iff.mp h)
  simp [EndsInConstant, List.getLast?_append, hi]

theorem single_iff {i : Instr Nat} : EndsInConstant [i] ↔ ∃ v, i.op = .push v := by
  constructor
  · rintro ⟨v, span, h⟩
    cases h
    exact ⟨v, rfl⟩
  · rintro ⟨v, h⟩
    exact ⟨v, i.span, by rw [← h]; rfl⟩

end EndsInConstant

/-- The code does not end in two constants. -/
def OneConstant (code : List (Instr Nat)) : Prop :=
  EndsInConstant code → ¬EndsInConstant code.dropLast

namespace OneConstant

variable {code more : List (Instr Nat)}

/-- Behind an instruction that pushes no constant, code ends as it ends alone. -/
theorem behind {i : Instr Nat} (hi : ∀ v, i.op ≠ .push v) (hm : more ≠ []) (h : OneConstant more) :
    OneConstant (code ++ i :: more) := by
  intro he hd
  have hne : i :: more ≠ [] := List.cons_ne_nil i more
  rw [EndsInConstant.append_iff hne, ← List.singleton_append, EndsInConstant.append_iff hm] at he
  rw [List.dropLast_append_of_ne_nil hne, List.dropLast_cons_of_ne_nil hm] at hd
  rw [EndsInConstant.append_iff (List.cons_ne_nil _ _), ← List.singleton_append] at hd
  -- of two constants at the end, the first would be the instruction in front or part of `more`
  by_cases hn : more.dropLast = []
  · rw [hn, List.append_nil, EndsInConstant.single_iff] at hd
    obtain ⟨v, hv⟩ := hd
    exact hi v hv
  · rw [EndsInConstant.append_iff hn] at hd
    exact h he hd

theorem branched (kind : JumpKind) (target : Nat) (span : Span) (hm : more ≠ [])
    (h : OneConstant more) : OneConstant (code ++ branch kind target span ++ more) := by
  rw [branch, List.append_cons, List.append_assoc]
  exact behind nofun hm h

/-- Code that ends in something else. -/
theorem last {i : Instr Nat} (hi : ∀ v, i.op ≠ .push v) : OneConstant (code ++ [i]) := by
  intro he
  rw [EndsInConstant.append_iff (List.cons_ne_nil _ _), EndsInConstant.single_iff] at he
  obtain ⟨v, hv⟩ := he
  exact absurd hv (hi v)

end OneConstant

/-- A block does not end in two constants. -/
theorem Expr.not_two_constants (e : Expr) (start : Nat) : OneConstant (e.code false start) := by
  match e with
  | .leaf l span => exact fun _ => nofun
  | .fallback subject text subjectSpan headSpan textSpan =>
      show OneConstant ([⟨subject.op, subjectSpan⟩] ++ branch .ifNonEmpty (start + 4) headSpan ++
        [⟨.push (.text text), textSpan⟩])
      exact .branched _ _ headSpan (List.cons_ne_nil _ _) fun _ => nofun
  | .unary op e span => exact .last nofun
  | .binary op a b span => exact .last nofun
  | .sequence a b span => exact .behind nofun (b.code_ne_nil _) (b.not_two_constants _)
  | .either a b span | .both a b span | .orElse a b span | .choice _ a b _ span =>
      exact .branched _ _ span (b.code_ne_nil _) (b.not_two_constants _)
  | .call e args span => exact .last nofun

end ExprEngine
