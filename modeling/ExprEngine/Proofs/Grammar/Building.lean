import ExprEngine.Grammar.Parser

/-!
# Building trees

The grammar puts trees together out of operands, operators, branches and calls.  What holds of every
operand that it reads, and of every tree that it builds of trees of which it holds (`Builds`), holds
of the tree of every source, since each function of the grammar reads such trees only.

* `Builds.of_parse`: that it does.
-/

namespace ExprEngine

namespace Grammar

variable {α β : Type} {c d : Cursor} {P : α → Prop} {Q : β → Prop}

/-- Whatever is read has a property. -/
def Yields (P : α → Prop) (x : Except Rejection (Parsed α c)) : Prop :=
  ∀ p, x = .ok p → P p.value

namespace Yields

theorem ok {p : Parsed α c} (h : P p.value) : Yields P (.ok p) := by
  rintro _ ⟨⟩
  exact h

theorem error (r : Rejection) : Yields P (.error r : Except Rejection (Parsed α c)) :=
  fun _ => nofun

theorem bind {x : Except Rejection (Parsed α c)} {f : Parsed α c → Except Rejection (Parsed β d)}
    (hx : Yields P x) (hf : ∀ p, P p.value → Yields Q (f p)) : Yields Q (x >>= f) := by
  cases x with
  | error r => exact error r
  | ok p => exact hf p (hx p rfl)

/-- What was read from a later cursor on. -/
theorem since {x : Except Rejection (Parsed α d)} (h : d.rest.length ≤ c.rest.length)
    (hx : Yields P x) : Yields P (x >>= fun p => pure (p.since h)) :=
  hx.bind fun _ hp => ok hp

end Yields

/-- An operand that starts with no sign of its own. -/
theorem bare_of_other (commands : Commands) (slash : Bool) {c : Cursor} {ch : Char}
    (hn : ¬startsNumber c.rest) (hc : c.peek? = some ch) (h₁ : ch ≠ '{') (h₂ : ch ≠ '%')
    (h₃ : ch ≠ '$') (h₄ : ch ≠ '(') :
    bare commands slash c = if Ascii.isQuote ch then quoted ch c
      else if Ascii.isWordStart ch then .ok (name slash c) else c.unexpected .operand := by
  rw [bare, if_neg hn, hc]
  split
  · next h => exact absurd (Option.some.inj h) h₁
  · next h => exact absurd (Option.some.inj h) h₂
  · next h => exact absurd (Option.some.inj h) h₃
  · next h => exact absurd (Option.some.inj h) h₄
  · next h =>
    cases h
    rfl
  · next h => cases h

/-- The operands that are no texts have a property. -/
structure Operands (Q : Expr → Prop) : Prop where
  number : ∀ {cs n used}, Literal.parse cs = .ok (n, used) →
    ∀ span, Q (.leaf (.value (.ofNumber n)) span)
  name : ∀ x span, Q (.leaf (.value (.name x)) span)
  param : ∀ s span, Q (.leaf (.param s) span)
  body : ∀ x span, Q (.leaf (.body x) span)
  output : ∀ line span, Q (.leaf (.output line) span)
  fallback : ∀ subject text subjectSpan headSpan textSpan,
    Q (.fallback subject text subjectSpan headSpan textSpan)

namespace Operands

variable {Q : Expr → Prop} (h : Operands Q)

include h

theorem yields_number (c : Cursor) : Yields Q (Grammar.number c) := by
  unfold Grammar.number
  split
  · next hn => exact .ok (h.number hn _)
  · exact .error _

theorem yields_output (start c : Cursor) : Yields Q (Grammar.output start c) := by
  unfold Grammar.output
  split
  · exact .error _
  · exact .ok (h.output _ _)

theorem yields_body (start c : Cursor) : Yields Q (Grammar.body start c) := by
  unfold Grammar.body
  split
  · dsimp only
    split
    · exact .ok (h.body _ _)
    · exact .error _
  · dsimp only
    split <;> exact .ok (h.body _ _)

theorem withDefault (start : Cursor) (bracketed : Bool) (s : Subject) (c : Cursor) :
    Q (Grammar.withDefault start bracketed s c).value := by
  unfold Grammar.withDefault
  split
  · exact h.fallback ..
  · cases s with
    | «variable» x => exact h.name x _
    | param s => exact h.param s _

theorem yields_substitution (c : Cursor) : Yields Q (substitution c) := by
  unfold substitution
  split
  · refine Yields.bind (P := fun _ => True) (fun _ _ => trivial) fun p _ => ?_
    dsimp only
    split
    · exact .ok (h.withDefault ..)
    · exact .error _
  · refine Yields.bind (P := fun _ => True) (fun _ _ => trivial) fun p _ => ?_
    exact .ok (h.withDefault c false p.value p.next)

theorem yields_percentSubstitution (c : Cursor) : Yields Q (percentSubstitution c) :=
  (h.yields_substitution c).bind fun _ hp => .ok hp

end Operands

/-- What the grammar makes has a property: its operands have it, and so has what it builds of trees
that do. -/
structure Builds (commands : Commands) (Q : Expr → Prop) : Prop extends Operands Q where
  text : ∀ t span, Q (.leaf (.value (.text t)) span)
  unary : ∀ {op e span}, Q e → Q (.unary op e span)
  binary : ∀ {op a b span}, Q a → Q b → Q (.binary op a b span)
  sequence : ∀ {a b span}, Q a → Q b → Q (.sequence a b span)
  either : ∀ {a b span}, Q a → Q b → Q (.either a b span)
  both : ∀ {a b span}, Q a → Q b → Q (.both a b span)
  choice : ∀ {c a b question colon}, Q c → Q a → Q b → Q (.choice c a b question colon)
  orElse : ∀ {c b question}, Q c → Q b → Q (.orElse c b question)
  /-- A call has the callee that was found, and as many arguments as that takes. -/
  call : ∀ {e e' callee span} {args : List Expr}, Q e →
    resolveCallee commands e = .ok (callee, e') → (∀ a ∈ args, Q a) →
    callee.countError? args.length = none → Q (.call e' (.ofList args) span)

namespace Builds

variable {commands : Commands} {Q : Expr → Prop} (h : Builds commands Q)

include h

theorem yields_quoted (quote : Char) (c : Cursor) : Yields Q (quoted quote c) := by
  unfold quoted
  dsimp only
  split
  · exact .error _
  · exact .ok (h.text _ _)

theorem build (j : Joiner) {left right : Expr} (hl : Q left) (hr : Q right) (span : Span) :
    Q (j.build left right span) := by
  cases j with
  | binary op => exact h.binary hl hr
  | either => exact h.either hl hr
  | both => exact h.both hl hr

end Builds

/-! ### Expressions -/

variable {commands : Commands} {Q : Expr → Prop}

/-- Everything that is read has the property, whatever function of the grammar reads it. -/
theorem yields_of_builds (h : Builds commands Q) :
    (∀ c, Yields Q (sequence commands c)) ∧
    (∀ first c, Q first → Yields Q (sequenceTail commands first c)) ∧
    (∀ c, Yields Q (assignment commands c)) ∧
    (∀ c, Yields Q (conditional commands c)) ∧
    (∀ l c, Yields Q (chain commands l c)) ∧
    (∀ l left c, Q left → Yields Q (chainTail commands l left c)) ∧
    (∀ l slash c, Yields Q (operand commands l slash c)) ∧
    (∀ slash c, Yields Q (unary commands slash c)) ∧
    (∀ c, Yields (∀ e ∈ ·, Q e) (arguments commands c)) ∧
    (∀ c, Yields (∀ e ∈ ·, Q e) (argumentTail commands c)) ∧
    (∀ slash c, Yields Q (primary commands slash c)) ∧
    ∀ slash c, Yields Q (bare commands slash c) := by
  refine sequence.mutual_induct
    (fun c => Yields Q (sequence commands c))
    (fun first c => Q first → Yields Q (sequenceTail commands first c))
    (fun c => Yields Q (assignment commands c))
    (fun c => Yields Q (conditional commands c))
    (fun l c => Yields Q (chain commands l c))
    (fun l left c => Q left → Yields Q (chainTail commands l left c))
    (fun l slash c => Yields Q (operand commands l slash c))
    (fun slash c => Yields Q (unary commands slash c))
    (fun c => Yields (∀ e ∈ ·, Q e) (arguments commands c))
    (fun c => Yields (∀ e ∈ ·, Q e) (argumentTail commands c))
    (fun slash c => Yields Q (primary commands slash c))
    (fun slash c => Yields Q (bare commands slash c))
    ?_ ?_ ?_ ?_ ?_ ?_ ?_ ?_ ?_ ?_ ?_ ?_ ?_ ?_ ?_ ?_ ?_ ?_ ?_ ?_ ?_ ?_ ?_ ?_ ?_ ?_ ?_ ?_ ?_
  -- sequences
  · intro c first tail
    rw [sequence]
    exact first.bind fun p hp => (tail p.value p.next p.le hp).since p.le
  · intro first c hc hf
    rw [sequenceTail, hc]
    exact .ok hf
  · intro first c d hd hc second tail hf
    rw [sequenceTail, hc]
    refine second.bind fun p hp => ?_
    have hl := Nat.le_of_lt (Nat.lt_of_le_of_lt p.le hd)
    exact (tail p.value p.next p.le (h.sequence hf hp)).since hl
  -- assignments
  · intro c left right
    rw [assignment]
    refine left.bind fun p hp => ?_
    dsimp only
    split
    · exact .ok hp
    · next op e he _ =>
      exact (right p.next p.le e he).bind fun q hq => .ok (h.binary hp hq)
  -- choices, with and without an operand between the signs
  · intro c condition orElse yes no
    rw [conditional]
    refine condition.bind fun p hp => ?_
    dsimp only
    split
    · exact .ok hp
    · next e he _ =>
      split
      · next start hs _ =>
        exact (orElse p.next p.le e he _ e.pastBlanks.2 start hs).bind fun q hq =>
          .ok (h.orElse hp hq)
      · refine (yes p.next p.le e he _ e.pastBlanks.2).bind fun q hq => ?_
        split
        · exact .error _
        · next start hs _ =>
          exact (no p.next p.le e he _ e.pastBlanks.2 q.next q.le start hs).bind fun r hr =>
            .ok (h.choice hp hq hr)
  -- chains: one tree for each joiner
  · intro l c left tail
    rw [chain]
    exact left.bind fun p hp => (tail p.value p.next p.le hp).since p.le
  · intro l left c hc hl
    rw [chainTail, hc]
    exact .ok hl
  · intro l left c j d hd hc right tail hl
    rw [chainTail, hc]
    refine right.bind fun p hp => ?_
    have hn := Nat.le_of_lt (Nat.lt_of_le_of_lt p.le hd)
    exact (tail p.value p.next p.le (h.build j hl hp _)).since hn
  -- the operand of the tightest level is one with signs, else a chain of the next level
  · intro l slash c hl hx
    rw [operand]
    split
    · exact hx
    · next m hm => cases hl.symm.trans hm
  · intro l slash c m hl hx
    rw [operand]
    split
    · next hm => cases hm.symm.trans hl
    · next k hm =>
      cases hm.symm.trans hl
      exact hx
  -- signs in front of an operand
  · intro slash c start hs hc op d hd hr hx
    rw [unary, hc]
    dsimp only
    rw [hr]
    exact hx.bind fun p hp => .ok (h.unary hp)
  -- a call: the arguments are counted against the callee that was found
  · intro slash c start hs hc hr callee args
    rw [unary, hc]
    dsimp only
    rw [hr]
    refine callee.bind fun p hp => ?_
    split
    · exact .ok hp
    · next inside hi _ =>
      split
      · exact .error _
      · next f e he =>
        refine (args p.next p.le inside hi).bind fun q hq => ?_
        split
        · exact .error _
        · next hn => exact .ok (h.call hp he hq hn)
  -- arguments
  · intro c start hs hc hp
    rw [arguments, hc]
    dsimp only
    rw [if_pos hp]
    exact .ok fun e he => absurd he List.not_mem_nil
  · intro c start hs hc hp hx
    rw [arguments, hc]
    dsimp only
    rw [if_neg hp]
    exact hx.since hs
  · intro c arg rest
    rw [argumentTail]
    refine arg.bind fun p hp => ?_
    dsimp only
    split
    · refine .ok fun e he => ?_
      rw [List.mem_singleton.mp he]
      exact hp
    · split
      · exact .error _
      · next d hd _ =>
        refine (rest p.next p.le d hd).bind fun q hq => .ok fun e he => ?_
        rcases List.mem_cons.mp he with rfl | he
        · exact hp
        · exact hq e he
  -- operands without signs, by the character that they start with
  · intro slash c hx
    rw [primary]
    exact hx.bind fun p hp => .ok hp
  · intro slash c hn
    rw [bare, if_pos hn]
    exact h.yields_number c
  · intro slash c hn hp
    rw [bare, if_neg hn, hp]
    exact h.yields_substitution c
  · intro slash c hn hp
    rw [bare, if_neg hn, hp]
    exact (h.yields_percentSubstitution _).since _
  · intro slash c hn hp hd
    rw [bare, if_neg hn, hp]
    dsimp only
    rw [hd]
    exact .error _
  · intro slash c hn hp d hd hc inside hi hb start hs hst _ hx
    obtain rfl : (inside.note .bracketed).pastBlanks.val = start := congrArg Subtype.val hst
    rw [bare, if_neg hn, hp]
    dsimp only
    rw [hc]
    dsimp only
    rw [hb]
    refine hx.bind fun p hp => ?_
    split
    · exact .error _
    · split
      · exact .error _
      · exact .ok hp
  · intro slash c hn hp d hd hc inside hi hb hb'
    rw [bare, if_neg hn, hp]
    dsimp only
    rw [hc]
    dsimp only
    rw [hb, hb']
    exact (h.yields_output c inside).since _
  · intro slash c hn hp d hd hc hb hb'
    rw [bare, if_neg hn, hp]
    dsimp only
    rw [hc]
    dsimp only
    rw [hb, hb']
    exact (h.yields_body c d).since _
  · intro slash c hn hp hc
    rw [bare, if_neg hn, hp]
    dsimp only
    rw [hc]
    exact .error _
  · intro slash c hn hp d hd hc hx
    rw [bare, if_neg hn, hp]
    dsimp only
    rw [hc]
    refine hx.bind fun p hp => ?_
    split
    · exact .error _
    · exact .ok hp
  · intro slash c hn ch h1 h2 h3 h4 hc hq
    rw [bare_of_other commands slash hn hc h1 h2 h3 h4, if_pos hq]
    exact h.yields_quoted ch c
  · intro slash c hn ch h1 h2 h3 h4 hc hq hw
    rw [bare_of_other commands slash hn hc h1 h2 h3 h4, if_neg hq, if_pos hw]
    exact .ok (h.name _ _)
  · intro slash c hn ch h1 h2 h3 h4 hc hq hw
    rw [bare_of_other commands slash hn hc h1 h2 h3 h4, if_neg hq, if_neg hw]
    exact .error _
  · intro slash c hn hc
    rw [bare, if_neg hn, hc]
    exact .error _

/-- The tree of a source is what is read up to its end. -/
theorem sequence_of_parse {source : String} {e : Expr} (h : (parse commands source).1 = .ok e) :
    ∃ p, sequence commands (.ofString source) = .ok p ∧ p.value = e := by
  unfold parse at h
  cases hs : sequence commands (.ofString source) with
  | error r =>
      rw [hs] at h
      cases h
  | ok p =>
      rw [hs] at h
      by_cases he : p.next.rest.isEmpty
      · simp only [bind, Except.bind, he, if_true, pure, Except.pure, Except.ok.injEq] at h
        exact ⟨p, rfl, h⟩
      · simp [bind, Except.bind, he, Cursor.unexpected, Cursor.refuse] at h

/-- **The tree of a source** has what the grammar builds. -/
theorem Builds.of_parse (h : Builds commands Q) {source : String} {e : Expr}
    (hs : (parse commands source).1 = .ok e) : Q e := by
  obtain ⟨p, hp, rfl⟩ := sequence_of_parse hs
  exact (yields_of_builds h).1 (.ofString source) p hp

end Grammar

end ExprEngine
