import ExprEngine.Proofs.Program.Blocks

/-!
# Folding on trees

The compiler folds constants in the code that it has put together.  The same is done on trees here:
the operands of an operator are constants if the last of them is one and what stands last in the
first is one, with only commas in front of it (`Expr.tail?`).

* `Expr.code_folded`: code with folded constants is the code of the folded expression.
* `Operator.computed?`: what the operator is computed to.
-/

namespace ExprEngine

/-- What the operator makes of constants beforehand, if it may be computed with them. -/
def Operator.computed? (op : Operator) (vs : List Value) : Option Value :=
  if op.assigns || !vs.all op.folds then none else op.reduceConstants vs

namespace Expr

/-- The constant at the end of an expression, behind commas, with its place. -/
def tail? : Expr → Option (Value × Span)
  | leaf (.value v) span => some (v, span)
  | sequence _ e _ => e.tail?
  | _ => none

/-- The expression with another constant at its end. -/
def withTail (v : Value) (span : Span) : Expr → Expr
  | leaf _ _ => leaf (.value v) span
  | sequence a e comma => sequence a (e.withTail v span) comma
  | e => e

/-- An operator in front of an operand, or the constant that it is computed to. -/
def unaryFolded (op : Unary) (e : Expr) (span : Span) : Expr :=
  match e.tail? with
  | some (v, s) =>
    match op.operator.computed? [v] with
    | some u => e.withTail u (span.join s)
    | none => unary op e span
  | none => unary op e span

/-- An operator between two operands, or the constant that it is computed to. -/
def binaryFolded (op : Binary) (a b : Expr) (span : Span) : Expr :=
  match a.tail?, b with
  | some (v, s), leaf (.value w) t =>
    match op.operator.computed? [v, w] with
    | some u => a.withTail u ((span.join s).join t)
    | none => binary op a b span
  | _, _ => binary op a b span

end Expr

mutual

/-- The expression with all constants folded. -/
def Expr.folded : Expr → Expr
  | .leaf l span => .leaf l span
  | .fallback subject text subjectSpan headSpan textSpan =>
    .fallback subject text subjectSpan headSpan textSpan
  | .unary op e span => .unaryFolded op e.folded span
  | .binary op a b span => .binaryFolded op a.folded b.folded span
  | .sequence a b span => .sequence a.folded b.folded span
  | .either a b span => .either a.folded b.folded span
  | .both a b span => .both a.folded b.folded span
  | .choice c a b question colon => .choice c.folded a.folded b.folded question colon
  | .orElse c b question => .orElse c.folded b.folded question
  | .call e args span => .call e.folded args.folded span

/-- The arguments with all constants folded. -/
def Args.folded : Args → Args
  | .nil => .nil
  | .cons e rest => .cons e.folded rest.folded

end

@[simp] theorem Args.length_folded (args : Args) : args.folded.length = args.length := by
  cases args with
  | nil => rfl
  | cons e rest => simp [Args.folded, Args.length, rest.length_folded]

/-! ### The folder -/

theorem foldLast?_eq (op : Operator) (n : Nat) (span : Span) (start : Nat)
    (code : List (Instr Nat)) :
    foldLast? op n span start code =
      (if (!op.assigns && (code.drop (code.length - n)).length == n &&
          !code.any (·.jumpsBehind (start + (code.length - n)))) = true then some () else none).bind
        fun _ => ((code.drop (code.length - n)).mapM (Instr.constant? op)).bind fun vs =>
          (op.reduceConstants vs).bind fun v => some (code.take (code.length - n) ++
            [⟨.push v, (code.drop (code.length - n)).foldl (fun s i => s.join i.span) span⟩]) :=
  rfl

/-- Constants with their places, as instructions. -/
def constants (cs : List (Value × Span)) : List (Instr Nat) :=
  cs.map fun c => ⟨.push c.1, c.2⟩

theorem mapM_constant? (op : Operator) (cs : List (Value × Span)) :
    (constants cs).mapM (Instr.constant? op) =
      if (cs.map Prod.fst).all op.folds then some (cs.map Prod.fst) else none := by
  induction cs with
  | nil => rfl
  | cons c rest ih =>
      rw [constants, List.map_cons, ← constants, List.mapM_cons, ih, Instr.constant?]
      by_cases hc : op.folds c.1 <;> by_cases hr : (rest.map Prod.fst).all op.folds <;>
        simp [hc, hr]

/-- The folder on code that ends in constants, behind which no jump leads. -/
theorem foldLast?_constants (op : Operator) (span : Span) {start : Nat} {code : List (Instr Nat)}
    (hj : JumpsUpTo (start + code.length) code) (cs : List (Value × Span)) :
    foldLast? op cs.length span start (code ++ constants cs) =
      (op.computed? (cs.map Prod.fst)).map fun u =>
        code ++ [⟨.push u, (cs.map Prod.snd).foldl Span.join span⟩] := by
  have hl : (constants cs).length = cs.length := List.length_map _
  have hk : (code ++ constants cs).length - cs.length = code.length := by
    rw [List.length_append, hl, Nat.add_sub_cancel]
  have hn : (code ++ constants cs).any (·.jumpsBehind (start + code.length)) = false := by
    rw [List.any_eq_false]
    intro i hi hb
    rcases List.mem_append.mp hi with hi | hi
    · cases ht : i.op.target? with
      | none => simp [Instr.jumpsBehind, ht] at hb
      | some t =>
          have := hj i hi t ht
          simp [Instr.jumpsBehind, ht] at hb
          omega
    · obtain ⟨c, -, rfl⟩ := List.mem_map.mp hi
      cases hb
  have hs : (constants cs).foldl (fun s i => s.join i.span) span =
      (cs.map Prod.snd).foldl Span.join span := by
    rw [constants, List.foldl_map, List.foldl_map]
  rw [foldLast?_eq]
  unfold Operator.computed?
  simp only [hk, List.drop_left, List.take_left, hl, hn, hs, mapM_constant?, BEq.rfl]
  by_cases ha : op.assigns
  · simp [ha]
  · by_cases hf : (cs.map Prod.fst).all op.folds
    · cases h : op.reduceConstants (cs.map Prod.fst) <;> simp [ha, hf, h]
    · simp [ha, hf]

theorem push_of_mapM {op : Operator} {code : List (Instr Nat)} {vs : List Value}
    (h : code.mapM (Instr.constant? op) = some vs) : ∀ i ∈ code, ∃ v, i.op = .push v := by
  induction code generalizing vs with
  | nil => exact fun i hi => absurd hi List.not_mem_nil
  | cons j rest ih =>
      simp only [List.mapM_cons, Option.bind_eq_bind, Option.bind_eq_some_iff] at h
      obtain ⟨v, hj, ws, hr, -⟩ := h
      intro i hi
      rcases List.mem_cons.mp hi with rfl | hi
      · unfold Instr.constant? at hj
        split at hj
        · next w hw => exact ⟨w, hw⟩
        · cases hj
      · exact ih hr i hi

/-- Where the folder folds, the operands are constants and no jump leads behind the first of
them. -/
theorem constants_of_foldLast? {op : Operator} {n : Nat} {span : Span} {start : Nat}
    {code new : List (Instr Nat)} (h : foldLast? op n span start code = some new) :
    n ≤ code.length ∧ JumpsUpTo (start + (code.length - n)) code ∧
      ∀ i ∈ code.drop (code.length - n), ∃ v, i.op = .push v := by
  rw [foldLast?_eq] at h
  simp only [Option.bind_eq_some_iff] at h
  obtain ⟨_, hg, vs, hm, -⟩ := h
  have hc : (!op.assigns && (code.drop (code.length - n)).length == n &&
      !code.any (·.jumpsBehind (start + (code.length - n)))) = true := by
    refine Decidable.byContradiction fun hc => ?_
    rw [if_neg hc] at hg
    cases hg
  simp only [Bool.and_eq_true, Bool.not_eq_true', List.length_drop, beq_iff_eq, List.any_eq_false]
    at hc
  obtain ⟨⟨-, hl⟩, hj⟩ := hc
  refine ⟨by omega, fun i hi t ht => ?_, push_of_mapM hm⟩
  have := hj i hi
  simp only [Instr.jumpsBehind, ht, Option.any_some, decide_eq_true_eq] at this
  omega

theorem reduceCode_true (op : Operator) (n : Nat) (span : Span) (start : Nat)
    (code : List (Instr Nat)) : reduceCode true op n span start code =
      (foldLast? op n span start code).getD (code ++ [⟨.reduce op n, span⟩]) :=
  rfl

/-- Code whose last instructions push constants ends in a constant. -/
theorem ends_of_drop {code : List (Instr Nat)} {k : Nat} (hk : k < code.length)
    (h : ∀ i ∈ code.drop k, ∃ v, i.op = .push v) : EndsInConstant code := by
  have hd : (code.drop k).getLast? = code.getLast? := by
    rw [List.getLast?_drop, if_neg (by omega)]
  obtain ⟨i, hi⟩ := Option.ne_none_iff_exists'.mp
    (mt List.getLast?_eq_none_iff.mp (List.length_pos_iff.mp (Nat.zero_lt_of_lt hk)))
  obtain ⟨v, hv⟩ := h i (List.mem_of_getLast? (hd.trans hi))
  exact ⟨v, i.span, by rw [hi, ← hv]⟩

/-! ### Ends of trees -/

/-- A constant at the end of a tree is the last instruction of its code. -/
theorem Expr.code_of_tail? {e : Expr} {v : Value} {s : Span} (h : e.tail? = some (v, s))
    (start : Nat) : ∃ code, e.code false start = code ++ [⟨.push v, s⟩] ∧
      JumpsUpTo (start + code.length) code ∧
      ∀ u t, (e.withTail u t).code false start = code ++ [⟨.push u, t⟩] := by
  match e with
  | .leaf (.value w) span =>
      cases h
      exact ⟨[], rfl, fun i hi => absurd hi List.not_mem_nil, fun _ _ => rfl⟩
  | .sequence a b span =>
      obtain ⟨code, hc, hj, hw⟩ :=
        b.code_of_tail? h (start + (a.code false start).length + 1)
      refine ⟨a.code false start ++ ⟨.pop 1, span⟩ :: code, ?_, ?_, fun u t => ?_⟩
      · rw [Expr.code, hc, List.append_assoc, List.cons_append]
      · refine .append ((a.target_le start).mono ?_)
          (.cons (fun t ht => by cases ht) (hj.mono ?_)) <;>
        simp
        omega
      · rw [Expr.withTail, Expr.code, hw, List.append_assoc, List.cons_append]

/-- Code that ends in a constant although its tree does not has a jump behind that constant. -/
theorem Expr.jump_of_tail? {e : Expr} (h : e.tail? = none) {start : Nat}
    (hc : EndsInConstant (e.code false start)) :
    ¬JumpsUpTo (start + ((e.code false start).length - 1)) (e.code false start) := by
  intro hj
  match e with
  | .leaf (.value w) span => cases h
  | .leaf (.param _) span | .leaf (.body _) span | .leaf (.output _) span =>
      obtain ⟨v, hv⟩ := EndsInConstant.single_iff.mp hc
      cases hv
  | .fallback subject text _ headSpan _ =>
      have := hj.of_append_left.of_cons.of_branch
      simp [Expr.code, branch] at this
  | .unary op e span | .binary op a b span | .call e args span =>
      rw [Expr.code] at hc
      have he := (EndsInConstant.append_iff (List.cons_ne_nil _ _)).mp hc
      obtain ⟨v, hv⟩ := EndsInConstant.single_iff.mp he
      cases hv
  -- behind a comma the code ends as its last operand does
  | .sequence a b span =>
      rw [Expr.code, EndsInConstant.append_iff (List.cons_ne_nil _ _), ← List.singleton_append,
        EndsInConstant.append_iff (b.code_ne_nil _)] at hc
      have hb := hj.of_append_right.of_cons
      refine b.jump_of_tail? h hc (hb.mono ?_)
      have := b.length_code_pos (start + (a.code false start).length + 1)
      simp [Expr.code]
      omega
  -- the branch leads behind the last instruction
  | .either a b span | .both a b span | .orElse a b span | .choice _ a b _ span =>
      have := hj.of_append_left.of_append_right.of_branch
      simp [Expr.code, branch] at this
      omega

/-- Code of one instruction that pushes a constant is that of a leaf. -/
theorem Expr.leaf_of_length {e : Expr} {start : Nat} (h : (e.code false start).length ≤ 1)
    (hc : EndsInConstant (e.code false start)) : ∃ v span, e = .leaf (.value v) span := by
  cases e with
  | leaf l span =>
      obtain ⟨v, hv⟩ := EndsInConstant.single_iff.mp hc
      cases l <;> cases hv
      exact ⟨v, span, rfl⟩
  | fallback => simp [Expr.code, branch] at h
  | unary op e span =>
      have := e.length_code_pos start
      simp only [Expr.code, reduceCode_false, List.length_append, List.length_singleton] at h
      omega
  | binary op a b span =>
      have := a.length_code_pos start
      simp only [Expr.code, reduceCode_false, List.length_append, List.length_singleton] at h
      omega
  | call e args span =>
      have := e.length_code_pos start
      simp only [Expr.code, List.length_append, List.length_singleton] at h
      omega
  | sequence a b span =>
      have := a.length_code_pos start
      simp only [Expr.code, List.length_append, List.length_cons] at h
      omega
  | either | both | choice | orElse =>
      simp only [Expr.code, branch, List.length_append, List.length_cons] at h
      omega

/-! ### Folding operators -/

/-- An operator in front of a block, folded. -/
theorem Expr.code_unaryFolded (op : Unary) (e : Expr) (span : Span) (start : Nat) :
    reduceCode true op.operator 1 span start (e.code false start) =
      (Expr.unaryFolded op e span).code false start := by
  rw [reduceCode_true]
  cases ht : e.tail? with
  | some c =>
      obtain ⟨v, s⟩ := c
      obtain ⟨code, hc, hj, hw⟩ := e.code_of_tail? ht start
      have hf := foldLast?_constants op.operator span hj [(v, s)]
      have hl : e.code false start = code ++ constants [(v, s)] := hc
      rw [List.length_singleton, ← hl] at hf
      rw [hf, unaryFolded]
      cases hu : op.operator.computed? [v] with
      | none => simp [ht, hu, Expr.code]
      | some u => simp [ht, hu, hw]
  | none =>
      rw [unaryFolded, ht]
      cases hf : foldLast? op.operator 1 span start (e.code false start) with
      | none => simp [Expr.code]
      | some new =>
          obtain ⟨-, hj, hp⟩ := constants_of_foldLast? hf
          exact absurd hj (e.jump_of_tail? ht (ends_of_drop (by
            have := e.length_code_pos start
            omega) hp))

/-- Where two pieces of code end in two constants, the second piece does, or it is one of them and
the first piece ends in the other. -/
theorem ends_of_drop_append {code more : List (Instr Nat)} (hc : 0 < code.length)
    (hm : 0 < more.length)
    (h : ∀ i ∈ (code ++ more).drop ((code ++ more).length - 2), ∃ v, i.op = .push v) :
    EndsInConstant more ∧
      (EndsInConstant more.dropLast ∨ more.length ≤ 1 ∧ EndsInConstant code) := by
  rw [List.drop_append, List.length_append] at h
  have hd (i : Instr Nat) (hi : i ∈ more.drop (code.length + more.length - 2 - code.length)) :=
    h i (List.mem_append_right _ hi)
  refine ⟨ends_of_drop (by omega) hd, ?_⟩
  by_cases hl : more.length ≤ 1
  · exact .inr ⟨hl, ends_of_drop (by omega) fun i hi => h i (List.mem_append_left _ hi)⟩
  · have hk : more.length - 2 = code.length + more.length - 2 - code.length := by omega
    refine .inl (ends_of_drop (k := more.length - 2) ?_ fun i hi => hd i ?_)
    · rw [List.length_dropLast]
      omega
    · rw [List.dropLast_eq_take, List.drop_take, hk] at hi
      exact List.mem_of_mem_take hi

/-- The folder finds the operands of an operator between two blocks only where both are
constants. -/
theorem Expr.tails_of_foldLast? {op : Operator} {a b : Expr} {span : Span} {start : Nat}
    {new : List (Instr Nat)} (h : foldLast? op 2 span start
      (a.code false start ++ b.code false (start + (a.code false start).length)) = some new) :
    (∃ c, a.tail? = some c) ∧ ∃ v s, b = .leaf (.value v) s := by
  obtain ⟨-, hj, hp⟩ := constants_of_foldLast? h
  obtain ⟨hb, hd | ⟨hl, ha⟩⟩ := ends_of_drop_append (a.length_code_pos _) (b.length_code_pos _) hp
  -- both constants in the second block: no block ends in two
  · exact absurd hd (b.not_two_constants _ hb)
  -- one in each: the second block is that constant, and no jump leads in between
  · refine ⟨Option.ne_none_iff_exists'.mp fun ht => ?_, b.leaf_of_length hl hb⟩
    refine a.jump_of_tail? ht ha (hj.of_append_left.mono ?_)
    rw [List.length_append]
    omega

theorem Expr.binaryFolded_of_not {op : Binary} {a b : Expr} {span : Span}
    (h : ¬((∃ c, a.tail? = some c) ∧ ∃ v s, b = .leaf (.value v) s)) :
    Expr.binaryFolded op a b span = .binary op a b span := by
  unfold binaryFolded
  split
  · next v s w t ht => exact absurd ⟨⟨_, ht⟩, _, _, rfl⟩ h
  · rfl

/-- An operator between two blocks, folded. -/
theorem Expr.code_binaryFolded (op : Binary) (a b : Expr) (span : Span) (start : Nat) :
    reduceCode true op.operator 2 span start
        (a.code false start ++ b.code false (start + (a.code false start).length)) =
      (Expr.binaryFolded op a b span).code false start := by
  rw [reduceCode_true]
  by_cases h : (∃ c, a.tail? = some c) ∧ ∃ v s, b = .leaf (.value v) s
  · obtain ⟨⟨⟨v, s⟩, ht⟩, w, t, rfl⟩ := h
    obtain ⟨code, hc, hj, hw⟩ := a.code_of_tail? ht start
    have hf := foldLast?_constants op.operator span hj [(v, s), (w, t)]
    have hl : a.code false start ++ [⟨.push w, t⟩] = code ++ constants [(v, s), (w, t)] := by
      rw [hc, List.append_assoc]
      rfl
    have hb (start : Nat) : (Expr.leaf (.value w) t).code false start = [⟨.push w, t⟩] := rfl
    rw [show [(v, s), (w, t)].length = 2 from rfl, ← hl] at hf
    rw [hb, hf]
    cases hu : op.operator.computed? [v, w] with
    | none => simp [binaryFolded, ht, hu, Expr.code, Leaf.op]
    | some u => simp [binaryFolded, ht, hu, hw]
  · rw [Expr.binaryFolded_of_not h]
    cases hf : foldLast? op.operator 2 span start
        (a.code false start ++ b.code false (start + (a.code false start).length)) with
    | none => simp [Expr.code]
    | some new => exact absurd (Expr.tails_of_foldLast? hf) h

mutual

/-- **Folding in code is folding in the tree.** -/
theorem Expr.code_folded (e : Expr) (start : Nat) :
    e.code true start = e.folded.code false start := by
  match e with
  | .leaf l span => rfl
  | .fallback .. => rfl
  | .unary op e span => rw [Expr.code, e.code_folded, Expr.code_unaryFolded, Expr.folded]
  | .binary op a b span =>
      simp only [Expr.code, a.code_folded, b.code_folded, Expr.code_binaryFolded, Expr.folded]
  | .sequence a b span => simp only [Expr.code, Expr.folded, a.code_folded, b.code_folded]
  | .either a b span => simp only [Expr.code, Expr.folded, a.code_folded, b.code_folded]
  | .both a b span => simp only [Expr.code, Expr.folded, a.code_folded, b.code_folded]
  | .choice c a b question colon =>
      simp only [Expr.code, Expr.folded, c.code_folded, a.code_folded, b.code_folded]
  | .orElse c b question => simp only [Expr.code, Expr.folded, c.code_folded, b.code_folded]
  | .call e args span =>
      simp only [Expr.code, Expr.folded, e.code_folded, args.code_folded, Args.length_folded]

theorem Args.code_folded (args : Args) (start : Nat) :
    args.code true start = args.folded.code false start := by
  match args with
  | .nil => rfl
  | .cons e rest => simp only [Args.code, Args.folded, e.code_folded, rest.code_folded]

end

end ExprEngine
