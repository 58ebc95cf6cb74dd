import ExprEngine.Proofs.Grammar.Leaves

/-!
# Round trip

What a formula is written as is read back as the formula: compiling undoes printing.

A connective that binds to the left is met by the tail of its own precedence, with all that stands
left of it read already (`Leads.joined`); one that binds to the right is met behind an operand of
the next tighter precedence (`Reads.assigned`).  Either way the sign behind an operand is no sign of
a precedence as tight as the operand's (`Follows.connective`), which is what one or two characters
of a symbol have to tell.

* `Grammar.opens_chars`: no formula starts with a blank, a colon or a closing parenthesis.
* `Grammar.readable_of_passes`: by induction over formulas, each is read wherever it is written.
* `Program.compile_source`: the source of a formula compiles to the operations of the formula.
-/

namespace ExprEngine

open Grammar

namespace Connective

theorem symbol_ne_nil (i : Connective) : i.symbol ≠ [] := by
  cases i with
  | operator op => cases op <;> nofun
  | _ => nofun

/-- The blank in front of a connective is passed. -/
theorem dropWhile_symbol (i : Connective) (rest : List Char) :
    (' ' :: (i.symbol ++ ' ' :: rest)).dropWhile Ascii.isBlank = i.symbol ++ ' ' :: rest := by
  cases i with
  | operator op => cases op <;> rfl
  | _ => rfl

/-- The right operand of a connective that binds to the left is of the next tighter precedence. -/
theorem tighter?_precedence {i : Connective} (hi : i.precedence ≠ .assignment) :
    i.precedence.tighter? = some i.rightPrecedence := by
  cases i with
  | operator op => cases op <;> first | rfl | exact absurd rfl hi
  | _ => first | rfl | exact absurd rfl hi

theorem bindsLeft {i : Connective} (hi : i.precedence ≠ .assignment) :
    i.precedence = .sequence ∨ ∃ l, i.precedence = .level l := by
  cases i with
  | operator op => cases op <;> first | exact .inr ⟨_, rfl⟩ | exact absurd rfl hi
  | equals => exact absurd rfl hi
  | comma => exact .inl rfl
  | _ => exact .inr ⟨_, rfl⟩

end Connective

namespace Grammar

variable {commands : Commands} {f g h : Formula} {cs ds rest : List Char}

/-! ### How texts start and what follows them -/

/-- The text starts as an operand does, not with a blank or a sign that stands between or behind
operands. -/
def Opens (cs : List Char) : Prop :=
  ∃ ch ds, cs = ch :: ds ∧ Ascii.isBlank ch = false ∧ ch ≠ ')' ∧ ch ≠ ':'

namespace Opens

theorem append (h : Opens cs) (ds : List Char) : Opens (cs ++ ds) := by
  obtain ⟨ch, es, rfl, hc⟩ := h
  exact ⟨ch, es ++ ds, rfl, hc⟩

theorem parenthesized (k own : Precedence) (h : Opens cs) : Opens (parenthesized k own cs) := by
  unfold ExprEngine.parenthesized
  split
  · exact ⟨'(', _, rfl, by decide⟩
  · exact h

/-- Blanks in front are passed. -/
theorem dropWhile (h : Opens cs) : cs.dropWhile Ascii.isBlank = cs := by
  obtain ⟨ch, es, rfl, hb, -⟩ := h
  exact List.dropWhile_cons_of_neg (by simp [hb])

theorem dropWhile_blank (h : Opens cs) : (' ' :: cs).dropWhile Ascii.isBlank = cs := by
  rw [List.dropWhile_cons_of_pos (by decide), h.dropWhile]

/-- A word character. -/
theorem word {ch : Char} (h : Ascii.isWord ch = true) (cs : List Char) : Opens (ch :: cs) := by
  have hne : ∀ d, Ascii.isWord d = false → ch ≠ d := by
    rintro d hd rfl
    cases hd.symm.trans h
  refine ⟨ch, cs, rfl, ?_, hne _ rfl, hne _ rfl⟩
  simp [Ascii.isBlank, hne ' ' rfl, hne '\t' rfl, hne '\n' rfl, hne '\x0c' rfl, hne '\r' rfl]

end Opens

/-- Every formula is written so. -/
theorem opens_chars (f : Formula) : Opens f.chars := by
  match f with
  | .name x => exact .word (Ascii.isWord_of_isWordStart x.starts) _
  | .number n =>
      obtain ⟨ch, cs, hd, hdigit⟩ := Decimal.digits_eq_cons n
      rw [Formula.chars, hd]
      exact .word (by simp [Ascii.isWord, Char.isAlphanum, hdigit]) cs
  | .text q s => exact ⟨q.char, _, rfl, by cases q <;> decide⟩
  | .signed op f => cases op <;> exact ⟨_, _, rfl, by decide⟩
  | .joined i f g | .choice f _ g | .orElse f g | .call f args =>
      simp only [Formula.chars, List.append_assoc]
      exact ((opens_chars f).parenthesized _ _).append _

theorem opens_within (k : Precedence) (f : Formula) : Opens (f.within k) :=
  (opens_chars f).parenthesized k f.precedence

theorem Follows.nil (k : Precedence) : Follows k [] :=
  ⟨nofun, fun j _ => by cases j with | level l => cases l <;> rfl | _ => rfl⟩

/-- In front of a blank and a sign of no tighter precedence. -/
theorem Follows.blank {k : Precedence} (hs : rest.dropWhile Ascii.isBlank = rest)
    (h : ∀ j : Precedence, j.looseness ≤ k.looseness → j.goesOn rest = false) :
    Follows k (' ' :: rest) where
  stops := by
    rintro ch ⟨⟩
    decide
  ends j hj := by
    rw [List.dropWhile_cons_of_pos (by decide), hs]
    exact h j hj

/-- No text goes on with a closing parenthesis. -/
theorem Follows.close (k : Precedence) (rest : List Char) : Follows k (')' :: rest) where
  stops := by
    rintro ch ⟨⟩
    decide
  ends j _ := by cases j with | level l => cases l <;> rfl | _ => rfl

/-- An argument does not go on with a comma. -/
theorem Follows.comma (rest : List Char) : Follows .assignment (',' :: rest) where
  stops := by
    rintro ch ⟨⟩
    decide
  ends j hj := by
    cases j with
    | level l => cases l <;> rfl
    | sequence => exact absurd hj (by decide)
    | _ => rfl

/-- A callee does not go on with its arguments. -/
theorem Follows.arguments (rest : List Char) : Follows .primary ('(' :: rest) where
  stops := by
    rintro ch ⟨⟩
    decide
  ends j hj := by
    cases j with
    | primary => rfl
    | _ => simp [Precedence.looseness] at hj

/-- A condition does not go on with a question mark. -/
theorem Follows.question (rest : List Char) :
    Follows (.level .disjunction) (' ' :: '?' :: rest) := by
  refine .blank rfl fun j hj => ?_
  cases j with
  | level l => cases l <;> rfl
  | conditional => exact absurd hj (by decide)
  | _ => rfl

/-- What stands between the signs of a choice does not go on with the second one. -/
theorem Follows.colon (k : Precedence) (rest : List Char) :
    Follows k (' ' :: ':' :: ' ' :: rest) := by
  refine .blank rfl fun j _ => ?_
  cases j with
  | level l => cases l <;> rfl
  | _ => rfl

/-- A text does not go on with a connective of a looser precedence. -/
theorem Follows.connective {i : Connective} {k : Precedence}
    (hk : k.looseness < i.precedence.looseness) (rest : List Char) :
    Follows k (' ' :: (i.symbol ++ ' ' :: rest)) := by
  have hs := i.dropWhile_symbol rest
  rw [List.dropWhile_cons_of_pos (by decide)] at hs
  refine .blank hs fun j hj => ?_
  replace hk := Nat.lt_of_le_of_lt hj hk
  cases i with
  | operator op =>
      cases op <;> rcases j with _ | _ | ⟨⟨⟩⟩ | _ | _ | _ <;>
        first | rfl | exact absurd hk (by decide)
  | _ => rcases j with _ | _ | ⟨⟨⟩⟩ | _ | _ | _ <;> first | rfl | exact absurd hk (by decide)

/-! ### Connectives -/

variable (commands) in
/-- The connective of a level joins what stands around it. -/
theorem joiner?_symbol {i : Connective} {l : Level} (hi : i.precedence = .level l)
    (rest : List Char) :
    ∃ j, l.joiner? (i.symbol ++ ' ' :: rest) = some (j, i.symbol.length) ∧
      ∀ f g a b span, Renders commands f a → Renders commands g b →
        Renders commands (.joined i f g) (j.build a b span) := by
  cases i with
  | operator op =>
      cases op <;> cases hi <;>
        exact ⟨.binary _, rfl, fun _ _ _ _ span ha hb => ha.operator _ hb span⟩
  | either =>
      cases hi
      exact ⟨.either, rfl, fun _ _ _ _ span ha hb => ha.either hb span⟩
  | both =>
      cases hi
      exact ⟨.both, rfl, fun _ _ _ _ span ha hb => ha.both hb span⟩
  | equals => cases hi
  | comma => cases hi

variable (commands) in
/-- An assignment is read as one, however it is written. -/
theorem assignment?_symbol {i : Connective} (hi : i.precedence = .assignment) (rest : List Char) :
    ∃ op, assignment? (i.symbol ++ ' ' :: rest) = some (op, i.symbol.length) ∧
      ∀ f g a b span, Renders commands f a → Renders commands g b →
        Renders commands (.joined i f g) (.binary op a b span) := by
  cases i with
  | operator op =>
      cases op <;> cases hi <;> exact ⟨_, rfl, fun _ _ _ _ span ha hb => ha.operator _ hb span⟩
  | equals => exact ⟨.assign, rfl, fun _ _ _ _ span ha hb => ha.equals hb span⟩
  | either => cases hi
  | both => cases hi
  | comma => cases hi

theorem unary?_symbol (op : Unary) (rest : List Char) :
    unary? (op.operator.symbol.toList ++ ' ' :: rest) =
      some (op, op.operator.symbol.toList.length) := by
  cases op <;> rfl

variable (commands) in
/-- Where the connective of a left-binding precedence comes next, reading goes on with its right
operand, and then with what both are joined to. -/
theorem Precedence.tail_step {i : Connective} (hi : i.precedence ≠ .assignment) {c : Cursor}
    (hc : c.rest = i.symbol ++ ' ' :: rest) :
    ∃ (d : c.Past) (slash : Bool) (build : Expr → Expr → Expr), d.val.rest = ' ' :: rest ∧
      (∀ f g a b, Renders commands f a → Renders commands g b →
        Renders commands (.joined i f g) (build a b)) ∧
      ∀ left, i.precedence.tail commands left c =
        (i.rightPrecedence.read commands slash d.val >>= fun q =>
          i.precedence.tail commands (build left q.value) q.next >>= fun r =>
            pure (r.since (Nat.le_trans q.le (Nat.le_of_lt d.2)))) := by
  have hr := i.tighter?_precedence hi
  cases hp : i.precedence with
  | level l =>
      obtain ⟨j, hj, hb⟩ := joiner?_symbol commands hp rest
      rw [← hc] at hj
      obtain ⟨d, hd, he, hn⟩ := Cursor.read?_append hc i.symbol_ne_nil hj
      refine ⟨⟨d, hd⟩, j == .binary .div, fun a b => j.build a b (c.spanTo d), hn,
        fun f g a b => hb f g a b _, fun left => ?_⟩
      rw [hp] at hr
      rw [Precedence.tail, chainTail, he]
      dsimp only
      rw [Precedence.operand_eq_read commands _ hr]
      rfl
  | sequence =>
      obtain rfl : i = .comma := by
        cases i with
        | operator op => cases op <;> cases hp
        | comma => rfl
        | _ => cases hp
      obtain ⟨d, hd, he, hn⟩ := Cursor.eat?_cons hc
      refine ⟨⟨d, hd⟩, false, fun a b => .sequence a b (c.spanTo d), hn,
        fun f g a b ha hb => ha.comma hb _, fun left => ?_⟩
      rw [Precedence.tail, sequenceTail, he]
      rfl
  | assignment => exact absurd hp hi
  | _ =>
    cases i with
    | operator op => cases op <;> cases hp
    | _ => cases hp

/-- **What is joined from the left is read from the left**: the left operand leads to the
connective, and both together lead on. -/
theorem Leads.joined {i : Connective} (hi : i.precedence ≠ .assignment)
    (hf : Leads commands i.precedence f cs) (hg : Reads commands i.rightPrecedence g ds)
    (ho : Opens ds) :
    Leads commands i.precedence (.joined i f g) (cs ++ ' ' :: i.symbol ++ ' ' :: ds) := by
  intro slash c rest hc hr
  have hj := i.tighter?_precedence hi
  have hc' : c.rest.dropWhile Ascii.isBlank = cs ++ ' ' :: (i.symbol ++ ' ' :: (ds ++ rest)) := by
    rw [hc]
    simp
  obtain ⟨p, hp, he⟩ := hf slash c _ hc' fun k hk => .connective (by
    rw [Precedence.looseness_of_tighter? hk]
    exact Nat.lt_succ_self _) _
  have hn : p.next.rest = i.symbol ++ ' ' :: (ds ++ rest) := hp.rest.trans (i.dropWhile_symbol _)
  obtain ⟨d, slash', build, hd, hb, ht⟩ := Precedence.tail_step commands hi hn
  obtain ⟨q, hq, hgq⟩ := hg slash' d.val rest (by rw [hd, (ho.append rest).dropWhile_blank])
    (hr _ hj)
  refine ⟨⟨build p.value q.value, q.next, ?_⟩, ⟨hb f g _ _ hp.renders hgq.renders, hgq.rest⟩, ?_⟩
  · exact Nat.le_trans q.le (Nat.le_trans (Nat.le_of_lt d.2) p.le)
  · rw [he, ht, hq]
    dsimp only [bind, Except.bind]
    cases i.precedence.tail commands (build p.value q.value) q.next <;> rfl

/-- What is assigned is read from the right. -/
theorem Reads.assigned {i : Connective} (hi : i.precedence = .assignment)
    (hf : Reads commands .conditional f cs) (hg : Reads commands .assignment g ds)
    (ho : Opens ds) :
    Reads commands .assignment (.joined i f g) (cs ++ ' ' :: i.symbol ++ ' ' :: ds) := by
  intro slash c rest hc hr
  have hc' : c.rest.dropWhile Ascii.isBlank = cs ++ ' ' :: (i.symbol ++ ' ' :: (ds ++ rest)) := by
    rw [hc]
    simp
  obtain ⟨p, he, hp⟩ := hf slash c _ hc' (.connective (by rw [hi]; decide) _)
  have hn : p.next.rest = i.symbol ++ ' ' :: (ds ++ rest) := hp.rest.trans (i.dropWhile_symbol _)
  obtain ⟨op, ha, hb⟩ := assignment?_symbol commands hi (ds ++ rest)
  rw [← hn] at ha
  obtain ⟨d, hd, hread, hdr⟩ := Cursor.read?_append hn i.symbol_ne_nil ha
  obtain ⟨q, hq, hgq⟩ := hg false d rest (by rw [hdr, (ho.append rest).dropWhile_blank]) hr
  replace he : Grammar.conditional commands c = .ok p := he
  replace hq : Grammar.assignment commands d = .ok q := hq
  refine ⟨⟨.binary op p.value q.value (p.next.spanTo d), q.next,
    Nat.le_trans q.le (Nat.le_trans (Nat.le_of_lt hd) p.le)⟩, ?_,
    hb f g _ _ _ hp.renders hgq.renders, hgq.rest⟩
  rw [Precedence.read, Grammar.assignment, he]
  dsimp only [bind, Except.bind]
  rw [hread]
  dsimp only
  rw [hq]
  rfl

/-! ### Choices -/

theorem Reads.choice {es : List Char} (hh : Reads commands (.level .disjunction) h es)
    (hf : Reads commands .sequence f cs) (hg : Reads commands .conditional g ds)
    (hcs : Opens cs) (hds : Opens ds) :
    Reads commands .conditional (.choice h f g)
      (es ++ ' ' :: '?' :: ' ' :: cs ++ ' ' :: ':' :: ' ' :: ds) := by
  intro slash c rest hc hr
  have hc' : c.rest.dropWhile Ascii.isBlank =
      es ++ ' ' :: '?' :: ' ' :: (cs ++ ' ' :: ':' :: ' ' :: (ds ++ rest)) := by
    rw [hc]
    simp
  obtain ⟨p, hp, hhp⟩ := hh slash c _ hc' (.question _)
  obtain ⟨d, hd, hquestion, hdr⟩ := Cursor.eat?_cons hhp.rest
  -- the blank behind the question mark is passed, and no colon stands there
  have hyr : d.pastBlanks.val.rest = cs ++ ' ' :: ':' :: ' ' :: (ds ++ rest) := by
    rw [Cursor.rest_pastBlanks, hdr, (hcs.append _).dropWhile_blank]
  have hno : d.pastBlanks.val.eat? ':' = none := by
    refine Cursor.eat?_of_ne ?_
    obtain ⟨ch, es, rfl, -, -, hcolon⟩ := hcs
    simpa [hyr] using hcolon
  obtain ⟨q, hq, hfq⟩ := hf false d.pastBlanks.val _
    (by rw [hyr, (hcs.append _).dropWhile]) (.colon _ _)
  obtain ⟨e, he, hcolon, her⟩ := Cursor.eat?_cons hfq.rest
  obtain ⟨r, hr', hgr⟩ := hg false e rest (by rw [her, (hds.append rest).dropWhile_blank]) hr
  replace hp : chain commands .disjunction c = .ok p := hp
  replace hq : Grammar.sequence commands d.pastBlanks.val = .ok q := hq
  replace hr' : Grammar.conditional commands e = .ok r := hr'
  simp only [Cursor.pastBlanks] at hno hq
  refine ⟨⟨.choice p.value q.value r.value (p.next.spanTo d) (q.next.spanTo e), r.next, ?_⟩, ?_,
    hhp.renders.choice hfq.renders hgr.renders _ _, hgr.rest⟩
  · have := p.le
    have := q.le
    have := r.le
    have := d.pastBlanks.2
    omega
  · rw [Precedence.read, Grammar.conditional, hp]
    simp only [bind, Except.bind, hquestion, Cursor.pastBlanks, hno, hq, hcolon, hr']
    rfl

theorem Reads.orElse (hh : Reads commands (.level .disjunction) h cs)
    (hg : Reads commands .conditional g ds) (hds : Opens ds) :
    Reads commands .conditional (.orElse h g) (cs ++ ' ' :: '?' :: ':' :: ' ' :: ds) := by
  intro slash c rest hc hr
  have hc' : c.rest.dropWhile Ascii.isBlank = cs ++ ' ' :: '?' :: ':' :: ' ' :: (ds ++ rest) := by
    rw [hc]
    simp
  obtain ⟨p, hp, hhp⟩ := hh slash c _ hc' (.question _)
  obtain ⟨d, hd, hquestion, hdr⟩ := Cursor.eat?_cons hhp.rest
  have hyr : d.pastBlanks.val.rest = ':' :: ' ' :: (ds ++ rest) := by
    rw [Cursor.rest_pastBlanks, hdr]
    rfl
  obtain ⟨e, he, hcolon, her⟩ := Cursor.eat?_cons hyr
  obtain ⟨r, hr', hgr⟩ := hg false e rest (by rw [her, (hds.append rest).dropWhile_blank]) hr
  replace hp : chain commands .disjunction c = .ok p := hp
  replace hr' : Grammar.conditional commands e = .ok r := hr'
  simp only [Cursor.pastBlanks] at hcolon
  refine ⟨⟨.orElse p.value r.value (p.next.spanTo d), r.next, ?_⟩, ?_,
    hhp.renders.orElse hgr.renders _, hgr.rest⟩
  · have := p.le
    have := r.le
    have := d.pastBlanks.2
    omega
  · rw [Precedence.read, Grammar.conditional, hp]
    simp only [bind, Except.bind, hquestion, Cursor.pastBlanks, hcolon, hr']
    rfl

/-! ### Operators in front, parentheses and calls -/

theorem Reads.signed (op : Unary) (hf : Reads commands .unary f cs) (ho : Opens cs) :
    Reads commands .unary (.signed op f) (op.operator.symbol.toList ++ ' ' :: cs) := by
  intro slash c rest hc hr
  have hs : c.pastBlanks.val.rest = op.operator.symbol.toList ++ ' ' :: (cs ++ rest) := by
    rw [Cursor.rest_pastBlanks, hc]
    simp
  have hu := unary?_symbol op (cs ++ rest)
  rw [← hs] at hu
  obtain ⟨d, hd, hread, hdr⟩ := Cursor.read?_append hs (by cases op <;> decide) hu
  obtain ⟨p, hp, hfp⟩ := hf false d rest (by rw [hdr, (ho.append rest).dropWhile_blank]) hr
  replace hp : Grammar.unary commands false d = .ok p := hp
  simp only [Cursor.pastBlanks] at hread
  refine ⟨⟨.unary op p.value (c.pastBlanks.val.spanTo d), p.next, ?_⟩, ?_,
    hfp.renders.signed op _, hfp.rest⟩
  · have := p.le
    have := c.pastBlanks.2
    omega
  · rw [Precedence.read, Grammar.unary]
    simp only [Cursor.pastBlanks, hread, hp, bind, Except.bind]
    rfl

/-- What stands in parentheses is a primary operand. -/
theorem Reads.inParentheses (hf : Reads commands .sequence f cs) (ho : Opens cs) :
    Reads commands .primary f ('(' :: cs ++ [')']) := by
  refine .primary fun slash c rest hc _ => ?_
  have hc' : c.rest = '(' :: (cs ++ ')' :: rest) := by
    rw [hc]
    simp
  obtain ⟨d, hd, hopen, hdr⟩ := Cursor.eat?_cons hc'
  obtain ⟨p, hp, hfp⟩ := hf false d (')' :: rest) (by rw [hdr, (ho.append _).dropWhile])
    (.close _ _)
  have hpr : p.next.rest = ')' :: rest := hfp.rest
  obtain ⟨e, he, hclose, her⟩ := Cursor.eat?_cons hpr
  replace hp : Grammar.sequence commands d = .ok p := hp
  have hn : ¬startsNumber c.rest := by
    rw [hc']
    simp [startsNumber]
  have hpeek : c.peek? = some '(' := by rw [Cursor.peek?, hc']; rfl
  refine ⟨⟨p.value, e, ?_⟩, ?_, hfp.renders, her⟩
  · have := p.le
    omega
  · rw [bare, if_neg hn, hpeek]
    simp only [hopen, hp, hclose, bind, Except.bind]
    rfl

/-! ### Arguments -/

/-- The text of arguments is read up to the parenthesis behind them. -/
def ReadsAll (commands : Commands) (fs : Formulas) (cs : List Char) : Prop :=
  ∀ (c : Cursor) rest, c.rest = cs ++ ')' :: rest →
    ∃ p : Parsed (List Expr) c, arguments commands c = .ok p ∧ RendersAll commands fs p.value ∧
      p.next.rest = ')' :: rest

/-- The same of arguments of which there is one at least. -/
def ReadsSome (commands : Commands) (fs : Formulas) (cs : List Char) : Prop :=
  ∀ (c : Cursor) rest, c.rest.dropWhile Ascii.isBlank = cs ++ ')' :: rest →
    ∃ p : Parsed (List Expr) c, argumentTail commands c = .ok p ∧
      RendersAll commands fs p.value ∧ p.next.rest = ')' :: rest

theorem ReadsAll.nil : ReadsAll commands .nil [] := by
  intro c rest hc
  have hr : c.pastBlanks.val.rest = ')' :: rest := by
    rw [Cursor.rest_pastBlanks, hc]
    rfl
  have hp : c.pastBlanks.val.peek? = some ')' := by
    rw [Cursor.peek?, hr]
    rfl
  refine ⟨⟨[], c.pastBlanks.val, c.pastBlanks.2⟩, ?_, .nil, hr⟩
  simp only [Cursor.pastBlanks] at hp
  rw [arguments]
  simp only [Cursor.pastBlanks, hp]
  rfl

theorem ReadsSome.all {fs : Formulas} (ho : Opens cs) (h : ReadsSome commands fs cs) :
    ReadsAll commands fs cs := by
  intro c rest hc
  have hr : c.pastBlanks.val.rest = cs ++ ')' :: rest := by
    rw [Cursor.rest_pastBlanks, hc, (ho.append _).dropWhile]
  have hp : ¬c.pastBlanks.val.peek? = some ')' := by
    obtain ⟨ch, es, rfl, -, hclose, -⟩ := ho
    simpa [Cursor.peek?, hr] using hclose
  obtain ⟨p, he, hs, hn⟩ := h c.pastBlanks.val rest (by rw [hr, (ho.append _).dropWhile])
  refine ⟨p.since c.pastBlanks.2, ?_, hs, hn⟩
  simp only [Cursor.pastBlanks] at hp he
  rw [arguments]
  simp only [Cursor.pastBlanks, if_neg hp, he, bind, Except.bind]
  rfl

theorem ReadsSome.single (hf : Reads commands .assignment f cs) :
    ReadsSome commands (.cons f .nil) cs := by
  intro c rest hc
  obtain ⟨p, hp, hfp⟩ := hf false c (')' :: rest) hc (.close _ _)
  have hr : p.next.rest = ')' :: rest := hfp.rest
  have hpeek : p.next.peek? = some ')' := by
    rw [Cursor.peek?, hr]
    rfl
  replace hp : Grammar.assignment commands c = .ok p := hp
  refine ⟨⟨[p.value], p.next, p.le⟩, ?_, .cons hfp.renders .nil, hr⟩
  rw [argumentTail, hp]
  simp only [bind, Except.bind, hpeek]
  rfl

theorem ReadsSome.cons {fs : Formulas} (hf : Reads commands .assignment f cs) (ho : Opens ds)
    (hs : ReadsSome commands fs ds) : ReadsSome commands (.cons f fs) (cs ++ ',' :: ' ' :: ds) := by
  intro c rest hc
  have hc' : c.rest.dropWhile Ascii.isBlank = cs ++ ',' :: ' ' :: (ds ++ ')' :: rest) := by
    rw [hc]
    simp
  obtain ⟨p, hp, hfp⟩ := hf false c _ hc' (.comma _)
  have hr : p.next.rest = ',' :: ' ' :: (ds ++ ')' :: rest) := hfp.rest
  obtain ⟨d, hd, hcomma, hdr⟩ := Cursor.eat?_cons hr
  have hpeek : ¬p.next.peek? = some ')' := by simp [Cursor.peek?, hr]
  obtain ⟨q, hq, hsq, hn⟩ := hs d rest (by rw [hdr, (ho.append _).dropWhile_blank])
  replace hp : Grammar.assignment commands c = .ok p := hp
  refine ⟨⟨p.value :: q.value, q.next, ?_⟩, ?_, .cons hfp.renders hsq, hn⟩
  · have := p.le
    have := q.le
    omega
  · rw [argumentTail, hp]
    simp only [bind, Except.bind, if_neg hpeek, hcomma, hq]
    rfl

/-- A call of a name that may be called so is accepted. -/
theorem Reads.call {x : String} {args : Formulas} (hf : Reads commands .primary f cs)
    (hs : ∀ rest, unary? (cs ++ rest) = none) (ha : ReadsAll commands args ds)
    (hx : f.trailingName? = some x) (hc : MayCall commands x args.length) :
    Reads commands .unary (.call f args) (cs ++ '(' :: ds ++ [')']) := by
  intro slash c rest hc' _
  replace hc' : c.rest.dropWhile Ascii.isBlank = cs ++ '(' :: (ds ++ ')' :: rest) := by
    rw [hc']
    simp
  obtain ⟨p, hp, hfp⟩ := hf (slash && c.pastBlanks.val.pos == c.pos) c _ hc' (.arguments _)
  obtain ⟨p, hprimary, rfl⟩ := Precedence.primary_of_read hp
  have hu : c.pastBlanks.val.read? unary? = none :=
    Cursor.read?_none (by rw [Cursor.rest_pastBlanks, hc', hs])
  have hr : p.next.rest = '(' :: (ds ++ ')' :: rest) := hfp.rest
  obtain ⟨d, hd, hopen, hdr⟩ := Cursor.eat?_cons hr
  obtain ⟨q, hq, hsq, hqr⟩ := ha d rest hdr
  obtain ⟨callee, e, hcallee, hcount, hrenders⟩ := hfp.renders.call hx hc hsq
    (p.next.spanTo (q.next.advance 1).pastBlanks.val)
  replace hcallee : resolveCallee commands p.value = .ok (callee, e) := hcallee
  simp only [Cursor.pastBlanks] at hu hprimary hrenders
  refine ⟨⟨_, (q.next.advance 1).pastBlanks.val, ?_⟩, ?_, hrenders, ?_⟩
  · have := p.le
    have := q.le
    have := (q.next.advance 1).pastBlanks.2
    have := c.pastBlanks.2
    have := q.next.length_advance 1
    omega
  · rw [Precedence.read, Grammar.unary]
    simp only [Cursor.pastBlanks, hu, hprimary, hopen, hcallee, hq, hcount, bind, Except.bind]
    rfl
  · rw [Cursor.rest_pastBlanks, show (q.next.advance 1).rest = rest from
      @Cursor.rest_advance_length q.next [')'] rest hqr]

/-! ### Formulas -/

/-- A formula is read wherever it is written. -/
structure Readable (commands : Commands) (f : Formula) : Prop where
  /-- Where one of some precedence is wanted. -/
  reads : ∀ k, Reads commands k f (f.within k)
  /-- In front of a connective that binds to the left. -/
  leads : ∀ i : Connective, i.precedence ≠ .assignment →
    Leads commands i.precedence f (f.within i.precedence)

theorem unary?_word {ch : Char} (h : Ascii.isWord ch = true) (cs : List Char) :
    unary? (ch :: cs) = none := by
  have hne : ∀ d, Ascii.isWord d = false → d ≠ ch := by
    rintro d hd rfl
    cases hd.symm.trans h
  unfold unary?
  split
  · next hc => exact absurd (List.cons.inj hc).1.symm (hne '!' rfl)
  · next hc => exact absurd (List.cons.inj hc).1.symm (hne '+' rfl)
  · next hc => exact absurd (List.cons.inj hc).1.symm (hne '-' rfl)
  · next hc => exact absurd (List.cons.inj hc).1.symm (hne '+' rfl)
  · next hc => exact absurd (List.cons.inj hc).1.symm (hne '-' rfl)
  · rfl

/-- The text of a primary operand, or of anything in parentheses, starts with no sign. -/
theorem unary?_chars {f : Formula} (h : f.precedence = .primary) (rest : List Char) :
    unary? (f.chars ++ rest) = none := by
  cases f with
  | name x => exact unary?_word (Ascii.isWord_of_isWordStart x.starts) _
  | number n =>
      obtain ⟨ch, cs, hd, hdigit⟩ := Decimal.digits_eq_cons n
      rw [Formula.chars, hd]
      exact unary?_word (by simp [Ascii.isWord, Char.isAlphanum, hdigit]) _
  | text q s => cases q <;> rfl
  | signed => cases h
  | joined i =>
      cases i with
      | operator op => cases op <;> cases h
      | _ => cases h
  | choice => cases h
  | orElse => cases h
  | call => cases h

theorem unary?_within (f : Formula) (rest : List Char) :
    unary? (f.within .primary ++ rest) = none := by
  unfold Formula.within parenthesized
  split
  · rfl
  · next h =>
    refine unary?_chars (Precedence.eq_of_looseness ?_) rest
    exact Nat.le_antisymm (Nat.not_lt.mp h) (Nat.zero_le _)

/-- A formula is readable if it is read without parentheses, and leads to the connectives of its own
precedence. -/
theorem Readable.of_reads (h : Reads commands f.precedence f f.chars)
    (hl : ∀ i : Connective, i.precedence ≠ .assignment → i.precedence = f.precedence →
      Leads commands i.precedence f f.chars) : Readable commands f := by
  have hsequence : Reads commands .sequence f f.chars := by
    refine h.looser ?_ unary?_chars
    cases f.precedence with
    | level l => cases l <;> decide
    | _ => decide
  have hreads : ∀ k, Reads commands k f (f.within k) := by
    intro k
    unfold Formula.within parenthesized
    split
    · exact (hsequence.inParentheses (opens_chars f)).looser (Nat.zero_le _) fun _ _ => rfl
    · next hk => exact h.looser (Nat.not_lt.mp hk) unary?_chars
  refine ⟨hreads, fun i hi => ?_⟩
  by_cases ho : i.precedence = f.precedence
  · have hw : f.within i.precedence = f.chars := by simp [Formula.within, parenthesized, ho]
    rw [hw]
    exact hl i hi ho
  -- else the next tighter precedence asks for the same text
  · have hj := i.tighter?_precedence hi
    have hw : f.within i.precedence = f.within i.rightPrecedence := by
      have := Precedence.looseness_of_tighter? hj
      have hne : i.precedence.looseness ≠ f.precedence.looseness :=
        fun h => ho (Precedence.eq_of_looseness h)
      have hiff : i.precedence.looseness < f.precedence.looseness ↔
          i.rightPrecedence.looseness < f.precedence.looseness := by omega
      simp [Formula.within, parenthesized, hiff]
    rw [hw]
    exact (hreads _).leads hj (i.bindsLeft hi)

/-- A formula is readable if it is read without parentheses, and no connective that binds to the
left has its precedence. -/
theorem Readable.of_alone (h : Reads commands f.precedence f f.chars)
    (hs : f.precedence ≠ .sequence) (hl : ∀ l, f.precedence ≠ .level l) : Readable commands f := by
  refine .of_reads h fun i hi ho => ?_
  rcases i.bindsLeft hi with hb | ⟨l, hb⟩
  · exact absurd (ho.symm.trans hb) hs
  · exact absurd (ho.symm.trans hb) (hl l)

theorem Readable.joined (i : Connective) (hf : Readable commands f) (hg : Readable commands g) :
    Readable commands (.joined i f g) := by
  have hc : (Formula.joined i f g).chars =
      f.within i.leftPrecedence ++ ' ' :: i.symbol ++ ' ' :: g.within i.rightPrecedence := rfl
  by_cases hi : i.precedence = .assignment
  · have hl : i.leftPrecedence = .conditional := if_pos hi
    have hr : i.rightPrecedence = .assignment := if_pos hi
    rw [hl, hr] at hc
    refine .of_alone ?_ (by simp [Formula.precedence, hi]) (by simp [Formula.precedence, hi])
    rw [Formula.precedence, hi, hc]
    exact .assigned hi (hf.reads _) (hg.reads _) (opens_within _ g)
  · have hl : i.leftPrecedence = i.precedence := if_neg hi
    rw [hl] at hc
    have hleads : Leads commands i.precedence (.joined i f g) (Formula.joined i f g).chars :=
      hc ▸ .joined hi (hf.leads i hi) (hg.reads _) (opens_within _ g)
    refine .of_reads hleads.reads fun j hj ho => ?_
    rw [show j.precedence = i.precedence from ho]
    exact hleads

mutual

/-- Every formula whose calls pass the checks is read back, wherever it is written. -/
theorem readable_of_passes (f : Formula) (h : f.Passes commands) : Readable commands f := by
  match f with
  | .name x => exact .of_alone (.name x) nofun nofun
  | .number n => exact .of_alone (.number n) nofun nofun
  | .text q s => exact .of_alone (.text q s) nofun nofun
  | .signed op f =>
      have hf := readable_of_passes f h
      exact .of_alone (.signed op (hf.reads _) (opens_within _ f)) nofun nofun
  | .joined i f g => exact .joined i (readable_of_passes f h.1) (readable_of_passes g h.2)
  | .choice c f g =>
      have hc := readable_of_passes c h.1
      have hf := readable_of_passes f h.2.1
      have hg := readable_of_passes g h.2.2
      exact .of_alone (.choice (hc.reads _) (hf.reads _) (hg.reads _) (opens_within _ f)
        (opens_within _ g)) nofun nofun
  | .orElse c g =>
      have hc := readable_of_passes c h.1
      have hg := readable_of_passes g h.2
      exact .of_alone (.orElse (hc.reads _) (hg.reads _) (opens_within _ g)) nofun nofun
  | .call f .nil =>
      obtain ⟨⟨x, hx, hc⟩, hf, -⟩ := h
      exact .of_alone (.call ((readable_of_passes f hf).reads _) (unary?_within f) .nil hx hc)
        nofun nofun
  | .call f (.cons g rest) =>
      obtain ⟨⟨x, hx, hc⟩, hf, hg, hs⟩ := h
      have hs := readsSome_of_passes rest hs (readable_of_passes g hg)
      have ho : Opens (Formulas.cons g rest).chars := ((opens_within _ g).append _).append _
      exact .of_alone
        (.call ((readable_of_passes f hf).reads _) (unary?_within f) (hs.all ho) hx hc) nofun nofun

theorem readsSome_of_passes {first : Formula} (fs : Formulas) (h : fs.Passes commands)
    (hf : Readable commands first) :
    ReadsSome commands (.cons first fs) (Formulas.cons first fs).chars := by
  match fs with
  | .nil =>
      simp only [Formulas.chars, Formulas.separator, List.append_nil]
      exact .single (hf.reads .assignment)
  | .cons g rest =>
      have hs := readsSome_of_passes rest h.2 (readable_of_passes g h.1)
      have ho : Opens (Formulas.cons g rest).chars := ((opens_within _ g).append _).append _
      rw [Formulas.chars, Formulas.separator, List.append_assoc]
      exact .cons (hf.reads .assignment) ho hs

end

/-- A formula whose calls pass the checks is the whole of its source. -/
theorem parse_source {f : Formula} (h : f.Passes commands) :
    ∃ e, (parse commands f.source).1 = .ok e ∧ Renders commands f e := by
  have ho := opens_within .sequence f
  obtain ⟨p, hp, hr, hn⟩ := (readable_of_passes f h).reads .sequence false (.ofString f.source) []
    (by simp [Cursor.ofString, Formula.source, ho.dropWhile]) (.nil _)
  refine ⟨p.value, ?_, hr⟩
  replace hp : sequence commands (.ofString f.source) = .ok p := hp
  replace hn : p.next.rest.isEmpty = true := by simp [hn]
  simp only [parse, hp, bind, Except.bind, hn]
  rfl

end Grammar

/-- **Compiling undoes printing.**  The source of a formula whose calls pass the checks is accepted,
and with no operator computed beforehand its program is the operations of the formula. -/
theorem Program.compile_source {commands : Commands} {f : Formula} (h : f.Passes commands) :
    ∃ p, (Program.compile false commands f.source).1 = .ok p ∧
      p.code.toList.map Instr.op = f.ops commands 0 := by
  obtain ⟨e, he, hr⟩ := parse_source h
  refine ⟨⟨f.source, (e.code false 0).toArray⟩, ?_, ?_⟩
  · rw [Program.compile_fst, he]
    rfl
  · rw [List.toList_toArray]
    exact hr.ops 0

/-- A sum needs parentheses in a product, and a product none as an argument. -/
theorem Program.compile_source_of_call :
    let x : Formula := .name ⟨'x', [], rfl, nofun⟩
    let f : Formula := .joined .equals x (.call (.name ⟨'f', [], rfl, nofun⟩)
      (.cons (.joined (.operator .mul) x (.joined (.operator .add) x (.number 2))) .nil))
    f.source = "x = f(x * (x + 2))" ∧ f.Passes (fun _ => none) ∧
      ∃ p, (Program.compile false (fun _ => none) f.source).1 = .ok p ∧
        p.code.toList.map Instr.op =
          [.push (.name "x"), .push (.name "f"), .push (.name "x"), .push (.name "x"),
            .push (.int 2), .reduce .add 2, .reduce .mul 2, .call 2, .reduce .assign 2] := by
  intro x f
  have hf : f.Passes (fun _ => none) := by
    have hb : Builtin.find? "f" = none := by decide
    refine ⟨trivial, ⟨"f", rfl, ?_⟩, trivial, ⟨trivial, trivial, trivial⟩, trivial⟩
    simp [MayCall, hb]
  exact ⟨by decide, hf, Program.compile_source hf⟩

end ExprEngine
