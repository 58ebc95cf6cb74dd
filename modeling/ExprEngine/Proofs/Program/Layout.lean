import ExprEngine.Proofs.Grammar.Callees
import ExprEngine.Proofs.Machine.Operators
import ExprEngine.Proofs.Program.Folding

/-!
# Layouts of the stack

At every index of a program that the compiler made, the stack above the height that the program
found has a fixed layout: how many values lie there, and for each the one value to call that it may
be, if it may be one.  Since jumps lead forward only, the layout at an index is found by going
through the code in order as if no jump were taken (`Calling.placesAt`); what a jump brings along
fits the layout of its target.

* `Calling.Accepts`: what an operation asks of the layout that it meets.
* `Expr.laid`: in the code of a checked expression every operation meets what it asks for, and the
  value of the expression is left on what was there.
* `Calling.wellLaid_of_compile`: so in every program that the compiler makes.
-/

namespace ExprEngine

/-! ### Layouts -/

/-- The places above the height that a program found, the top first, each with what the value there
may be that is called. -/
abbrev Places (κ : Type) := List (Option κ)

/-- The places above the height that a program found, the top first, each with the function that the
value there may be. -/
abbrev Layout := List (Option Builtin)

/-- The first layout fits where the second is expected: a place for a value to call may hold
none. -/
inductive Places.Fits {κ : Type} : Places κ → Places κ → Prop
  | nil : Fits [] []
  | cons {x y : Option κ} {l k : Places κ} (h : x = none ∨ x = y) (t : Fits l k) :
    Fits (x :: l) (y :: k)

namespace Places.Fits

variable {κ : Type} {l k : Places κ}

theorem refl (l : Places κ) : Fits l l := by
  induction l with
  | nil => exact .nil
  | cons x l ih => exact .cons (.inr rfl) ih

/-- On top of one layout. -/
theorem top {x y : Option κ} (h : x = none) (l : Places κ) : Fits (x :: l) (y :: l) :=
  .cons (.inl h) (.refl l)

theorem trans {j : Places κ} (h : Fits l k) (hk : Fits k j) : Fits l j := by
  induction h generalizing j with
  | nil => exact hk
  | cons hx t ih =>
      cases hk with
      | cons hy u =>
          refine .cons ?_ (ih u)
          rcases hx with hx | rfl
          · exact .inl hx
          · exact hy

theorem length_eq (h : Fits l k) : l.length = k.length := by
  induction h with
  | nil => rfl
  | cons _ _ ih => exact congrArg (· + 1) ih

end Places.Fits

/-- How many values an operation takes or looks at. -/
def Op.need : Op Nat → Nat
  | .pop n | .call n | .reduce _ n => n
  | .dup | .jump .ifFalse _ | .jump .ifTrue _ | .jump .ifNonEmpty _ => 1
  | _ => 0

theorem Value.Data.function? {v : Value} (h : v.Data) : v.function? = none := by
  unfold Value.Data at h
  unfold Value.function?
  split
  · next hp => rw [hp] at h; exact h.elim
  · rfl

theorem Value.Data.command? {v : Value} (h : v.Data) : v.command? = none := by
  unfold Value.Data at h
  unfold Value.command?
  split
  · next hp => rw [hp] at h; exact h.elim
  · rfl

namespace Calling

variable {κ : Type} (C : Calling κ)

/-- Data is not there to be called. -/
theorem of?_data {v : Value} (h : v.Data) : C.of? v = none :=
  C.operand v h.function? h.command?

/-- The layout behind an operation that does not jump. -/
def effect : Op Nat → Places κ → Places κ
  | .push v, l => C.of? v :: l
  | .pop n, l => l.drop n
  | .dup, l => l.head?.join :: l
  | .jump .., l => l
  | .pushVariable _, l | .pushParam _, l | .pushBody _, l | .pushOutput _, l => none :: l
  | .call n, l | .reduce _ n, l => none :: l.drop n

/-- An operation finds the values that it needs; a call finds a callee, which takes the number of
arguments if it is there to be called, and nothing else to call for arguments; an operator finds its
operands, and nothing to call for them. -/
def Accepts (op : Op Nat) (l : Places κ) : Prop :=
  op.need ≤ l.length ∧ match op with
    | .call n => 0 < n ∧ (∀ x ∈ l.take (n - 1), x = none) ∧
        ∀ k, l[n - 1]? = some (some k) → C.Takes k (n - 1)
    | .reduce op n => op.Takes n ∧ ∀ x ∈ l.take n, x = none
    | _ => True

end Calling

/-- The layout behind an operation that does not jump. -/
def Op.effect : Op Nat → Layout → Layout
  | .push v, l => v.function? :: l
  | .pop n, l => l.drop n
  | .dup, l => l.head?.join :: l
  | .jump .., l => l
  | .pushVariable _, l | .pushParam _, l | .pushBody _, l | .pushOutput _, l => none :: l
  | .call n, l | .reduce _ n, l => none :: l.drop n

theorem Op.effect_eq (op : Op Nat) (l : Layout) : op.effect l = Calling.functions.effect op l := by
  cases op <;> rfl

theorem Unary.takes (op : Unary) : op.operator.Takes 1 := by
  cases op <;> exact Nat.le_refl 1

theorem Binary.takes (op : Binary) : op.operator.Takes 2 := by
  cases op <;> simp [operator, Operator.Takes]

/-! ### Code in place -/

section

variable {κ : Type} (C : Calling κ)

/-- The layout behind an instruction is the one that it makes. -/
def Follows (lay : Nat → Places κ) (k : Nat) (i : Instr Nat) : Prop :=
  lay (k + 1) = C.effect i.op (lay k)

/-- The instruction finds what it asks for; if it jumps, it jumps forward and no further than
`stop`, and its layout fits there. -/
def InPlace (lay : Nat → Places κ) (stop k : Nat) (i : Instr Nat) : Prop :=
  C.Accepts i.op (lay k) ∧
    ∀ t, i.op.target? = some t → k < t ∧ t ≤ stop ∧ Places.Fits (lay k) (lay t)

/-- The code leaves one value on what was there, and all its instructions are in place. -/
structure Laid (lay : Nat → Places κ) (start : Nat) (code : List (Instr Nat)) (x : Option κ) :
    Prop where
  layout : lay (start + code.length) = x :: lay start
  each : Each (InPlace C lay (start + code.length)) start code

end

variable {κ : Type} {C : Calling κ}

section

variable {lay : Nat → Places κ} {start stop stop' : Nat} {code : List (Instr Nat)}

theorem InPlace.mono {k : Nat} {i : Instr Nat} (h : InPlace C lay stop k i) (hs : stop ≤ stop') :
    InPlace C lay stop' k i :=
  ⟨h.1, fun t ht => ⟨(h.2 t ht).1, Nat.le_trans (h.2 t ht).2.1 hs, (h.2 t ht).2.2⟩⟩

theorem Laid.each_le {x : Option κ} (h : Laid C lay start code x)
    (hs : start + code.length ≤ stop) : Each (InPlace C lay stop) start code :=
  h.each.mono fun _ _ hi => hi.mono hs

/-- An instruction that neither takes a value nor jumps. -/
theorem inPlace_of_need {k : Nat} {op : Op Nat} {span : Span} (ht : op.target? = none)
    (ha : C.Accepts op (lay k)) : InPlace C lay stop k ⟨op, span⟩ :=
  ⟨ha, fun t h => by rw [ht] at h; cases h⟩

/-- The layouts in and behind a branch that meets one value. -/
theorem layout_branch {kind : JumpKind} {t : Nat} {span : Span} {x : Option κ} {l : Places κ}
    (hF : Each (Follows C lay) start (branch kind t span)) (hl : lay start = x :: l) :
    lay (start + 1) = x :: l ∧ lay (start + 2) = l := by
  obtain ⟨h1, h2, -⟩ := hF
  have h1 : lay (start + 1) = x :: l := h1.trans hl
  rw [Follows, h1] at h2
  exact ⟨h1, h2⟩

/-- A branch that meets one value and leads to where a layout with that value fits. -/
theorem each_branch {kind : JumpKind} {t : Nat} {span : Span} {x : Option κ} {l : Places κ}
    (hF : Each (Follows C lay) start (branch kind t span)) (hl : lay start = x :: l)
    (hk : start < t) (ht : t ≤ stop) (hf : Places.Fits (x :: l) (lay t)) :
    Each (InPlace C lay stop) start (branch kind t span) := by
  refine ⟨⟨⟨?_, trivial⟩, fun u hu => ?_⟩, inPlace_of_need rfl ⟨?_, trivial⟩, trivial⟩
  · rw [hl]
    cases kind <;> simp [Op.need]
  · cases hu
    exact ⟨hk, ht, hl ▸ hf⟩
  · rw [(layout_branch hF hl).1]
    simp [Op.need]

/-- Code with an instruction behind it that leaves one value. -/
theorem Laid.snoc {i : Instr Nat} {x : Option κ}
    (hc : Each (InPlace C lay (start + code.length)) start code)
    (hi : InPlace C lay (start + code.length + 1) (start + code.length) i)
    (hF : Follows C lay (start + code.length) i)
    (hl : C.effect i.op (lay (start + code.length)) = x :: lay start) :
    Laid C lay start (code ++ [i]) x := by
  have he : start + (code ++ [i]).length = start + code.length + 1 := by simp [Nat.add_assoc]
  refine ⟨?_, Each.append_iff.mpr ⟨?_, ?_, trivial⟩⟩
  · rw [he]
    exact Eq.trans hF hl
  · rw [he]
    exact hc.mono fun _ _ h => h.mono (Nat.le_succ _)
  · rw [he]
    exact hi

/-- Two blocks, of which a branch behind the first skips the second. -/
theorem Laid.branched {left right : List (Instr Nat)} {kind : JumpKind} {t : Nat} {span : Span}
    {y : Option κ} (hl : Laid C lay start left none)
    (hF : Each (Follows C lay) (start + left.length) (branch kind t span))
    (hr : Laid C lay (start + left.length + 2) right y)
    (ht : t = start + left.length + 2 + right.length) :
    Laid C lay start (left ++ branch kind t span ++ right) y := by
  obtain ⟨-, hb⟩ := layout_branch hF hl.layout
  have he : start + (left ++ branch kind t span ++ right).length = t := by
    simp only [branch, List.length_append, List.length_cons, List.length_nil]
    omega
  have hlt : lay t = y :: lay start := by
    rw [ht, hr.layout, hb]
  have hbl : start + (left ++ branch kind t span).length = start + left.length + 2 := by
    simp only [branch, List.length_append, List.length_cons, List.length_nil]
    omega
  refine ⟨by rw [he, hlt], ?_⟩
  rw [he, Each.append_iff, Each.append_iff, hbl]
  refine ⟨⟨hl.each_le (by omega), ?_⟩, hr.each_le (by omega)⟩
  exact each_branch hF hl.layout (by omega) (Nat.le_refl t) (hlt ▸ .top rfl _)

/-- Three blocks, of which the first decides which of the others is skipped. -/
theorem Laid.choice {condition yes no : List (Instr Nat)} {otherwise : Nat} {question colon : Span}
    {y : Option κ} (hc : Laid C lay start condition none)
    (ho : otherwise = start + condition.length + 2 + yes.length + 1)
    (hj : Each (Follows C lay) (start + condition.length) (branch .ifFalse otherwise question))
    (ha : Laid C lay (start + condition.length + 2) yes none)
    (hk : Each (Follows C lay) (start + condition.length + 2 + yes.length)
      (branch .always (otherwise + 1 + no.length) colon))
    (hb : Laid C lay (otherwise + 1) no y) :
    Laid C lay start (condition ++ branch .ifFalse otherwise question ++ yes ++
      branch .always (otherwise + 1 + no.length) colon ++ no) y := by
  obtain ⟨-, h2⟩ := layout_branch hj hc.layout
  have hl := ha.layout
  rw [h2] at hl
  obtain ⟨h3, h4⟩ := layout_branch hk hl
  -- the way around the first branch meets the value that decided, and drops it
  have hlo : lay otherwise = none :: lay start := ho ▸ h3
  have hln : lay (otherwise + 1 + no.length) = y :: lay start := by
    rw [hb.layout, ho]
    exact congrArg _ h4
  have he : start + (condition ++ branch .ifFalse otherwise question ++ yes ++
      branch .always (otherwise + 1 + no.length) colon ++ no).length =
        otherwise + 1 + no.length := by
    simp only [branch, List.length_append, List.length_cons, List.length_nil]
    omega
  refine ⟨by rw [he, hln], ?_⟩
  rw [he, Each.append_iff, Each.append_iff, Each.append_iff, Each.append_iff]
  simp only [branch, List.length_append, List.length_cons, List.length_nil, ← Nat.add_assoc]
  refine ⟨⟨⟨⟨hc.each_le (by omega), ?_⟩, ha.each_le (by omega)⟩, ?_⟩, ?_⟩
  · exact each_branch hj hc.layout (by omega) (by omega) (hlo ▸ .refl _)
  · exact each_branch hk hl (by omega) (Nat.le_refl _) (hln ▸ .top rfl _)
  · have hs : start + condition.length + (0 + 1 + 1) + yes.length + (0 + 1 + 1) =
        otherwise + 1 := by
      omega
    rw [hs]
    exact hb.each

end

mutual

/-- **The code of a checked expression** leaves its value on what was there, and every instruction
is in place. -/
theorem Expr.laid {e : Expr} (h : e.Checked C) {lay : Nat → Places κ} {start : Nat}
    (hF : Each (Follows C lay) start (e.code false start)) :
    Laid C lay start (e.code false start) (e.callee? C) := by
  match e with
  | .leaf l span =>
      refine ⟨?_, inPlace_of_need ?_ ?_, trivial⟩
      · cases l <;> exact hF.1
      · cases l <;> rfl
      · cases l <;> exact ⟨Nat.zero_le _, trivial⟩
  | .fallback subject text subjectSpan headSpan textSpan =>
      have hF : Each (Follows C lay) start ([⟨subject.op, subjectSpan⟩] ++
        (branch .ifNonEmpty (start + 4) headSpan ++ [⟨.push (.text text), textSpan⟩])) := hF
      obtain ⟨hs, hb⟩ := Each.append_iff.mp hF
      obtain ⟨hj, hp⟩ := Each.append_iff.mp hb
      -- the subject and the text are blocks of their own, and the branch skips the second
      have ls : Laid C lay start [⟨subject.op, subjectSpan⟩] none := by
        refine ⟨?_, inPlace_of_need ?_ ?_, trivial⟩
        · cases subject <;> exact hs.1
        · cases subject <;> rfl
        · cases subject <;> exact ⟨Nat.zero_le _, trivial⟩
      have lt : Laid C lay (start + 3) [⟨.push (.text text), textSpan⟩] none :=
        ⟨hp.1.trans (congrArg (· :: _) (C.of?_data (v := .text text) trivial)),
          inPlace_of_need rfl ⟨Nat.zero_le _, trivial⟩, trivial⟩
      exact Laid.branched ls hj lt rfl
  | .unary op e span =>
      obtain ⟨he, hr, -⟩ := Each.append_iff.mp hF
      obtain ⟨hl, hc⟩ := e.laid h.1 he
      rw [h.2] at hl
      refine .snoc hc (inPlace_of_need rfl ?_) hr ?_
      · rw [hl]
        exact ⟨by simp [Op.need], op.takes, by simp⟩
      · rw [hl]
        rfl
  | .binary op a b span =>
      obtain ⟨hab, hr, -⟩ := Each.append_iff.mp hF
      obtain ⟨ha, hb⟩ := Each.append_iff.mp hab
      have la := a.laid h.1.1 ha
      have lb := b.laid h.2.1 hb
      have hl := lb.layout
      rw [la.layout, h.1.2, h.2.2] at hl
      rw [Nat.add_assoc, ← List.length_append] at hl
      refine .snoc (Each.append_iff.mpr ⟨la.each_le ?_, lb.each_le ?_⟩)
        (inPlace_of_need rfl ?_) hr ?_
      · simp
      · simp [Nat.add_assoc]
      · rw [hl]
        exact ⟨by simp [Op.need], op.takes, by simp⟩
      · rw [hl]
        rfl
  | .sequence a b span =>
      obtain ⟨ha, hp, hb⟩ := Each.append_iff.mp hF
      have la := a.laid h.1.1 ha
      have lb := b.laid h.2 hb
      have hl := la.layout
      have hd : lay (start + (a.code false start).length + 1) = lay start := by
        rw [hp, hl]
        rfl
      have he : start + ((Expr.sequence a b span).code false start).length =
          start + (a.code false start).length + 1 +
            (b.code false (start + (a.code false start).length + 1)).length := by
        simp only [Expr.code, List.length_append, List.length_cons]
        omega
      refine ⟨by rw [he, lb.layout, hd]; rfl, ?_⟩
      rw [he]
      refine Each.append_iff.mpr ⟨la.each_le (by omega), inPlace_of_need rfl ⟨?_, trivial⟩, lb.each⟩
      rw [hl]
      simp [Op.need]
  | .either a b span | .both a b span | .orElse a b span =>
      obtain ⟨hab, hb⟩ := Each.append_iff.mp hF
      obtain ⟨ha, hj⟩ := Each.append_iff.mp hab
      refine .branched (h.1.2 ▸ a.laid h.1.1 ha) hj (b.laid h.2 ?_) rfl
      rwa [branch, List.length_append, ← Nat.add_assoc] at hb
  | .choice c a b question colon =>
      obtain ⟨h4, hb⟩ := Each.append_iff.mp hF
      obtain ⟨h3, hk⟩ := Each.append_iff.mp h4
      obtain ⟨h2, ha⟩ := Each.append_iff.mp h3
      obtain ⟨hc, hj⟩ := Each.append_iff.mp h2
      rw [List.length_append, ← Nat.add_assoc] at ha
      have la := a.laid h.2.1.1 ha
      rw [List.length_append, List.length_append, ← Nat.add_assoc, ← Nat.add_assoc] at hk
      refine .choice (h.1.2 ▸ c.laid h.1.1 hc) rfl hj (h.2.1.2 ▸ la) hk (b.laid h.2.2 ?_)
      simp only [List.length_append, ← Nat.add_assoc] at hb
      exact hb
  | .call e args span =>
      obtain ⟨hea, hr, -⟩ := Each.append_iff.mp hF
      obtain ⟨he, ha⟩ := Each.append_iff.mp hea
      have le := e.laid h.1.1 he
      obtain ⟨hl, hc⟩ := args.laid h.2 ha
      rw [le.layout, Nat.add_assoc, ← List.length_append] at hl
      refine .snoc (Each.append_iff.mpr ⟨le.each_le ?_, hc.mono fun _ _ hi => hi.mono ?_⟩)
        (inPlace_of_need rfl ?_) hr ?_
      · simp
      · simp [Nat.add_assoc]
      · rw [hl]
        refine ⟨by simp [Op.need], Nat.succ_pos _, ?_, ?_⟩
        · simp
        · simpa using h.1.2
      · rw [hl]
        simp [Calling.effect, Expr.callee?, List.drop_append]

/-- The code of checked arguments leaves their values on what was there. -/
theorem Args.laid {args : Args} (h : args.Checked C) {lay : Nat → Places κ} {start : Nat}
    (hF : Each (Follows C lay) start (args.code false start)) :
    lay (start + (args.code false start).length) = List.replicate args.length none ++ lay start ∧
      Each (InPlace C lay (start + (args.code false start).length)) start
        (args.code false start) := by
  match args with
  | .nil => exact ⟨rfl, trivial⟩
  | .cons e rest =>
      obtain ⟨he, hr⟩ := Each.append_iff.mp hF
      have le := e.laid h.1.1 he
      obtain ⟨hl, hc⟩ := rest.laid h.2 hr
      rw [le.layout, h.1.2, Nat.add_assoc, ← List.length_append] at hl
      refine ⟨hl.trans ?_, Each.append_iff.mpr ⟨le.each_le ?_, hc.mono fun _ _ hi => hi.mono ?_⟩⟩
      · rw [Args.length, List.replicate_succ', List.append_assoc, List.singleton_append]
      · simp [Args.code]
      · simp [Args.code, Nat.add_assoc]

end

/-! ### Folded expressions -/

theorem Operator.data_of_folds {op : Operator} {v : Value} (h : op.folds v) : v.Data := by
  unfold folds at h
  unfold Value.Data
  split at h <;> simp_all

/-- What an operator is computed to beforehand is data. -/
theorem Operator.data_of_computed? {op : Operator} {vs : List Value} {u : Value}
    (h : op.computed? vs = some u) : u.Data := by
  unfold computed? at h
  split at h
  · cases h
  · next hg =>
    rw [Bool.or_eq_true, Bool.not_eq_true', not_or, Bool.not_eq_false, List.all_eq_true] at hg
    have hs : Reduced (fun _ => True) vs {} (op.reduce vs {}) := reduces (fun _ _ => trivial) {}
    unfold reduceConstants at h
    generalize op.reduce vs {} = r at h hs
    cases hs with
    | halted => cases h
    | computed _ hv =>
        dsimp only at h
        split at h
        · cases h
          exact hv.data
        · cases h
    | @stored x v log _ hv =>
        dsimp only at h
        split at h
        · cases h
          cases hv with
          | made hv => exact hv.data
          | operand hv _ => exact data_of_folds (hg.2 u hv)
          | «variable» y hy => cases hy
        · cases h

theorem Expr.checked_withTail {e : Expr} {v : Value} {s : Span} (h : e.Checked C)
    (ht : e.tail? = some (v, s)) (u : Value) (t : Span) :
    (e.withTail u t).Checked C ∧ (e.withTail u t).callee? C = C.of? u := by
  match e with
  | .leaf (.value w) span => exact ⟨trivial, rfl⟩
  | .sequence a b span =>
      obtain ⟨hb, hf⟩ := b.checked_withTail h.2 ht u t
      exact ⟨⟨h.1, hb⟩, hf⟩

theorem Expr.plain_unaryFolded (op : Unary) {e : Expr} (h : e.Plain C) (span : Span) :
    (Expr.unaryFolded op e span).Plain C := by
  unfold unaryFolded
  split
  · next v s ht =>
    split
    · next u hu =>
      obtain ⟨hc, hf⟩ := e.checked_withTail h.1 ht u (span.join s)
      exact ⟨hc, hf.trans (C.of?_data (Operator.data_of_computed? hu))⟩
    · exact ⟨h, rfl⟩
  · exact ⟨h, rfl⟩

theorem Expr.plain_binaryFolded (op : Binary) {a b : Expr} (ha : a.Plain C) (hb : b.Plain C)
    (span : Span) : (Expr.binaryFolded op a b span).Plain C := by
  unfold binaryFolded
  split
  · next v s w t ht =>
    split
    · next u hu =>
      obtain ⟨hc, hf⟩ := a.checked_withTail ha.1 ht u ((span.join s).join t)
      exact ⟨hc, hf.trans (C.of?_data (Operator.data_of_computed? hu))⟩
    · exact ⟨⟨ha, hb⟩, rfl⟩
  · exact ⟨⟨ha, hb⟩, rfl⟩

theorem Expr.Plain.folded {e : Expr} (h : e.Plain C)
    (hf : e.folded.Checked C ∧ e.folded.callee? C = e.callee? C) : e.folded.Plain C :=
  ⟨hf.1, hf.2.trans h.2⟩

mutual

/-- Folding keeps an expression checked and leaves the function at its end alone. -/
theorem Expr.checked_folded {e : Expr} (h : e.Checked C) :
    e.folded.Checked C ∧ e.folded.callee? C = e.callee? C := by
  match e with
  | .leaf l span => exact ⟨h, rfl⟩
  | .fallback .. => exact ⟨h, rfl⟩
  | .unary op e span =>
      exact Expr.plain_unaryFolded op (Expr.Plain.folded h (e.checked_folded h.1)) span
  | .binary op a b span =>
      exact Expr.plain_binaryFolded op (Expr.Plain.folded h.1 (a.checked_folded h.1.1))
        (Expr.Plain.folded h.2 (b.checked_folded h.2.1)) span
  | .sequence a b span | .either a b span | .both a b span | .orElse a b span =>
      obtain ⟨hb, hf⟩ := b.checked_folded h.2
      exact ⟨⟨Expr.Plain.folded h.1 (a.checked_folded h.1.1), hb⟩, hf⟩
  | .choice c a b question colon =>
      have hc := Expr.Plain.folded h.1 (c.checked_folded h.1.1)
      have ha := Expr.Plain.folded h.2.1 (a.checked_folded h.2.1.1)
      obtain ⟨hb, hf⟩ := b.checked_folded h.2.2
      exact ⟨⟨hc, ha, hb⟩, hf⟩
  | .call e args span =>
      obtain ⟨he, hf⟩ := e.checked_folded h.1.1
      refine ⟨⟨⟨he, fun b hb => ?_⟩, args.checked_folded h.2⟩, rfl⟩
      rw [Args.length_folded]
      exact h.1.2 b (hf ▸ hb)

theorem Args.checked_folded {args : Args} (h : args.Checked C) : args.folded.Checked C := by
  match args with
  | .nil => trivial
  | .cons e rest => exact ⟨Expr.Plain.folded h.1 (e.checked_folded h.1.1), rest.checked_folded h.2⟩

end

/-! ### Programs -/

namespace Calling

/-- The layout at an index, as if no jump were taken on the way. -/
def placesAt (C : Calling κ) (code : List (Instr Nat)) (k : Nat) : Places κ :=
  (code.take k).foldl (fun l i => C.effect i.op l) []

theorem follows_placesAt (C : Calling κ) (code : List (Instr Nat)) :
    Each (Follows C (C.placesAt code)) 0 code := by
  refine .of_get fun k i hi => ?_
  rw [Nat.zero_add, Follows, placesAt, List.take_add_one, hi, List.foldl_append]
  rfl

theorem placesAt_succ (C : Calling κ) {p : Program} {k : Nat} {i : Instr Nat}
    (hi : p.code[k]? = some i) :
    C.placesAt p.code.toList (k + 1) = C.effect i.op (C.placesAt p.code.toList k) := by
  have hf := (C.follows_placesAt p.code.toList).get (k := k) (by simpa using hi)
  rwa [Nat.zero_add] at hf

/-- Every instruction of the program is in place, and one value is left at its end, which is not
there to be called. -/
structure WellLaid (C : Calling κ) (p : Program) : Prop where
  inPlace : ∀ k i, p.code[k]? = some i → InPlace C (C.placesAt p.code.toList) p.code.size k i
  final : C.placesAt p.code.toList p.code.size = [none]

/-- **Every program that the compiler makes** is well laid, folded or not. -/
theorem wellLaid_of_compile {optimize : Bool} {commands : Grammar.Commands} {source : String}
    {p : Program} (h : (Program.compile optimize commands source).1 = .ok p) : C.WellLaid p := by
  -- folded code is the code of the folded expression, so that this case is all there is
  have block {e : Expr} (he : e.Plain C) : C.WellLaid ⟨source, (e.code false 0).toArray⟩ := by
    obtain ⟨hl, hc⟩ := e.laid he.1 (C.follows_placesAt (e.code false 0))
    rw [Nat.zero_add] at hl hc
    rw [he.2] at hl
    refine ⟨fun k i hi => ?_, hl⟩
    have := hc.get (k := k) (by simpa using hi)
    rwa [Nat.zero_add] at this
  unfold Program.compile at h
  cases hp : (Grammar.parse commands source).1 with
  | error e => simp [hp, Except.map] at h
  | ok e =>
      have he := Grammar.plain_of_parse (C := C) hp
      simp only [hp, Except.map, Except.ok.injEq] at h
      subst h
      cases optimize with
      | false => exact block he
      | true =>
          rw [e.code_folded]
          exact block (he.folded (e.checked_folded he.1))

end Calling

/-- The layout at an index, as if no jump were taken on the way. -/
abbrev layoutAt : List (Instr Nat) → Nat → Layout :=
  Calling.functions.placesAt

theorem layoutAt_succ {p : Program} {k : Nat} {i : Instr Nat} (hi : p.code[k]? = some i) :
    layoutAt p.code.toList (k + 1) = i.op.effect (layoutAt p.code.toList k) :=
  (Calling.functions.placesAt_succ hi).trans (i.op.effect_eq _).symm

/-- Every instruction of the program is in place, and one value is left at its end, which is no
function. -/
abbrev Program.WellLaid (p : Program) : Prop :=
  Calling.functions.WellLaid p

theorem Program.WellLaid.final {p : Program} (hw : p.WellLaid) :
    layoutAt p.code.toList p.code.size = [none] :=
  Calling.WellLaid.final hw

/-- **Every program that the compiler makes** is well laid, folded or not. -/
theorem Program.wellLaid_of_compile {optimize : Bool} {commands : Grammar.Commands}
    {source : String} {p : Program} (h : (Program.compile optimize commands source).1 = .ok p) :
    p.WellLaid :=
  Calling.wellLaid_of_compile h

/-! ### Ways through a program -/

/-- Some way through the program comes to the index with the layout.  A way takes a jump or goes on
behind it, but does not go on behind one that is always taken. -/
inductive Program.Path (p : Program) : Nat → Layout → Prop
  | start : Path p 0 []
  | next {k : Nat} {l : Layout} {i : Instr Nat} (hp : Path p k l) (hi : p.code[k]? = some i)
    (hj : ∀ t, i.op ≠ .jump .always t) : Path p (k + 1) (i.op.effect l)
  | jump {k t : Nat} {l : Layout} {i : Instr Nat} (hp : Path p k l) (hi : p.code[k]? = some i)
    (ht : i.op.target? = some t) : Path p t l

theorem Places.Fits.drop {l k : Places κ} (h : Fits l k) (n : Nat) :
    Fits (l.drop n) (k.drop n) := by
  induction h generalizing n with
  | nil => cases n <;> exact .nil
  | cons hx t ih =>
      cases n with
      | zero => exact .cons hx t
      | succ n => exact ih n

theorem Places.Fits.get {l k : Places κ} (h : Fits l k) {n : Nat} {b : κ}
    (hb : l[n]? = some (some b)) : k[n]? = some (some b) := by
  induction h generalizing n with
  | nil => cases hb
  | cons hx t ih =>
      cases n with
      | zero =>
          cases hb
          rcases hx with hx | rfl
          · cases hx
          · rfl
      | succ n => exact ih hb

theorem Places.Fits.effect {l k : Layout} (h : Fits l k) (op : Op Nat) :
    Fits (op.effect l) (op.effect k) := by
  cases op with
  | dup =>
      refine .cons ?_ h
      cases h with
      | nil => exact .inr rfl
      | cons hx t => exact hx
  | push v => exact .cons (.inr rfl) h
  | pop n => exact h.drop n
  | jump kind t => exact h
  | call n => exact .cons (.inl rfl) (h.drop n)
  | reduce op n => exact .cons (.inl rfl) (h.drop n)
  | _ => exact .cons (.inl rfl) h

/-- Whatever way leads to an index, it comes with a layout that fits the one of the index. -/
theorem Program.Path.fits {p : Program} (hw : p.WellLaid) {k : Nat} {l : Layout} (h : p.Path k l) :
    Places.Fits l (layoutAt p.code.toList k) := by
  induction h with
  | start => exact .nil
  | @next k l i _ hi _ ih =>
      rw [layoutAt_succ hi]
      exact ih.effect i.op
  | jump _ hi ht ih => exact ih.trans ((hw.inPlace _ _ hi).2 _ ht).2.2

/-- All ways to an index come with the same height. -/
theorem Program.Path.length_eq {p : Program} (hw : p.WellLaid) {k : Nat} {l : Layout}
    (h : p.Path k l) : l.length = (layoutAt p.code.toList k).length :=
  (h.fits hw).length_eq

end ExprEngine
