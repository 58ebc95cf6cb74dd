import ExprEngine.Proofs.Bytewise.Agreement
import ExprEngine.Proofs.Grammar.Alone
import ExprEngine.Proofs.Grammar.Leaves
import ExprEngine.Proofs.Machine.Steps

/-!
# Quoted texts

Between two marks a backslash in front of the mark or of another backslash is dropped, and every
other character is kept.  So every text can be written, and what is written has one text.

* `Quote.Spells`: what stands between two marks, and the text that it spells.
* `Quote.spells_written`, `Quote.Spells.unique`: every text is spelled, and no two are alike.
* `Quote.spells_of_quotedText`: what the scanner reads is spelled.
* `Quote.stands_of_read`: where a text is read, it stands there between two marks.
* `Quote.literal_compiles`: every text as a source, and the text of every source that is a text.
-/

namespace ExprEngine

open Grammar

namespace Quote

variable {q : Quote} {cs inner rest t : List Char}

/-- What stands between two marks, and the text that it spells.  A backslash in front of the mark or
of a backslash is dropped; no mark is kept, and no backslash in front of the closing mark. -/
inductive Spells (q : Quote) : List Char → List Char → Prop
  | nil : Spells q [] []
  | dropped {c : Char} {cs t : List Char} (hc : c = q.char ∨ c = '\\') (h : Spells q cs t) :
    Spells q ('\\' :: c :: cs) (c :: t)
  | kept {c : Char} {cs t : List Char} (hq : c ≠ q.char)
    (hb : c = '\\' → ∃ d ds, cs = d :: ds ∧ d ≠ q.char ∧ d ≠ '\\') (h : Spells q cs t) :
    Spells q (c :: cs) (c :: t)

theorem exists_char {c : Char} (h : Ascii.isQuote c = true) : ∃ q : Quote, c = q.char := by
  simp only [Ascii.isQuote, Bool.or_eq_true, beq_iff_eq] at h
  obtain (rfl | rfl) | rfl := h
  · exact ⟨.double, rfl⟩
  · exact ⟨.single, rfl⟩
  · exact ⟨.back, rfl⟩

/-- Every text is spelled. -/
theorem spells_written (q : Quote) (s : List Char) : q.Spells (q.written s) s := by
  induction s with
  | nil => exact .nil
  | cons c s ih =>
      by_cases hc : c = q.char ∨ c = '\\'
      · have hw : q.written (c :: s) = '\\' :: c :: q.written s := by simp [written, hc]
        exact hw ▸ .dropped hc ih
      · have hw : q.written (c :: s) = c :: q.written s := by simp [written, hc]
        obtain ⟨hq, hb⟩ := not_or.mp hc
        exact hw ▸ .kept hq (fun h => absurd h hb) ih

/-- A backslash that is dropped is not kept. -/
theorem not_kept_of_dropped {c : Char} (hc : c = q.char ∨ c = '\\') :
    ¬∃ d ds, c :: cs = d :: ds ∧ d ≠ q.char ∧ d ≠ '\\' := by
  rintro ⟨_, _, ⟨⟩, hq, hb⟩
  exact hc.elim hq hb

/-- No two texts are spelled alike. -/
theorem Spells.unique {u : List Char} (h : q.Spells inner t) (h' : q.Spells inner u) : t = u := by
  induction h generalizing u with
  | nil => cases h'; rfl
  | dropped hc h ih =>
      cases h' with
      | dropped _ h' => rw [ih h']
      | kept _ hb _ => exact absurd (hb rfl) (not_kept_of_dropped hc)
  | kept _ hb h ih =>
      cases h' with
      | dropped hc _ => exact absurd (hb rfl) (not_kept_of_dropped hc)
      | kept _ _ h' => rw [ih h']

/-! ### The scanner -/

/-- A character in front of what spells a text, which it does not escape. -/
theorem Spells.keep {c d : Char} {more : List Char} (hq : ¬c = q.char)
    (he : ¬(c = '\\' ∧ (d = q.char ∨ d = '\\'))) (hd : d :: cs = inner ++ q.char :: more)
    (h : q.Spells inner t) : q.Spells (c :: inner) (c :: t) := by
  refine .kept hq (fun hc => ?_) h
  obtain ⟨hdq, hdb⟩ := not_or.mp fun hd => he ⟨hc, hd⟩
  cases inner with
  | nil => exact absurd (List.cons.inj hd).1 hdq
  | cons e es =>
      obtain rfl := (List.cons.inj hd).1
      exact ⟨d, es, rfl, hdq, hdb⟩

/-- Where the scanner finds an end, what stands before it spells the text. -/
theorem spells_of_quotedText {n : Nat} (h : (quotedText q.char cs).length? = some n) :
    ∃ inner rest, cs = inner ++ q.char :: rest ∧ n = inner.length + 1 ∧
      q.Spells inner (quotedText q.char cs).text := by
  fun_induction quotedText q.char cs generalizing n with
  | case1 => cases h
  | case2 =>
      cases h
      exact ⟨[], [], rfl, rfl, .nil⟩
  | case3 => cases h
  | case4 d rest =>
      cases h
      exact ⟨[], d :: rest, rfl, rfl, .nil⟩
  | case5 c d rest _ he ih =>
      obtain ⟨rfl, hd⟩ := he
      obtain ⟨m, hm, rfl⟩ := Option.map_eq_some_iff.mp h
      obtain ⟨inner, more, rfl, rfl, hs⟩ := ih hm
      exact ⟨'\\' :: d :: inner, more, rfl, rfl, .dropped hd hs⟩
  -- the character is kept, with a remark if it is a backslash
  | case6 d rest hq he =>
      rename_i ih
      obtain ⟨m, hm, rfl⟩ := Option.map_eq_some_iff.mp h
      obtain ⟨inner, more, hd, rfl, hs⟩ := ih hm
      exact ⟨'\\' :: inner, more, by rw [hd]; rfl, rfl, hs.keep hq he hd⟩
  | case7 c d rest hq he =>
      rename_i ih
      obtain ⟨m, hm, rfl⟩ := Option.map_eq_some_iff.mp h
      obtain ⟨inner, more, hd, rfl, hs⟩ := ih hm
      exact ⟨c :: inner, more, by rw [hd]; rfl, rfl, hs.keep hq he hd⟩

/-! ### Literals -/

/-- What is written between two marks, with the marks. -/
def marked (q : Quote) (inner : List Char) : List Char :=
  q.char :: (inner ++ [q.char])

/-- The source of a text. -/
def literal (q : Quote) (s : String) : String :=
  String.ofList (q.marked (q.written s.toList))

theorem marked_append (q : Quote) (inner rest : List Char) :
    q.marked inner ++ rest = q.char :: (inner ++ q.char :: rest) := by
  simp [marked]

/-- The text stands at the span, spelled out between two marks. -/
def Stands (source t : List Char) (span : Span) : Prop :=
  ∃ (q : Quote) (before inner after : List Char),
    source = before ++ (q.marked inner ++ after) ∧ span.start = Text.byteSize before ∧
      span.stop = Text.byteSize before + Text.byteSize (q.marked inner) ∧ q.Spells inner t

/-- What is read behind an opening mark spells the text that is read, up to a closing mark. -/
theorem spells_of_bare {commands : Commands} {c : Cursor} {p : Parsed Expr c}
    (hc : c.rest = q.char :: cs) (hb : bare commands false c = .ok p) {s : String} {span : Span}
    (hp : p.value = .leaf (.value (.text s)) span) :
    ∃ inner rest, c.rest = q.marked inner ++ rest ∧
      span = c.spanTo (c.advance (q.marked inner).length) ∧ q.Spells inner s.toList := by
  have hd : c.rest.drop 1 = cs := by rw [hc]; rfl
  rw [bare_of_quote commands false hc, Grammar.quoted, hd] at hb
  dsimp only at hb
  split at hb
  · cases hb
  · next n hn =>
    obtain ⟨inner, rest, rfl, rfl, hs⟩ := spells_of_quotedText hn
    have hl : 1 + (inner.length + 1) = (q.marked inner).length := by simp [marked, Nat.add_comm]
    cases hb
    cases hp
    refine ⟨inner, rest, by rw [hc, marked_append], by rw [hl], ?_⟩
    rw [String.toList_ofList]
    exact hs

/-- Of the operands only texts are texts. -/
theorem operands_ne_text {s : String} {span : Span} :
    Operands (· ≠ .leaf (.value (.text s)) span) where
  number {_ n _} _ _ := by cases n <;> nofun
  name _ _ := nofun
  param _ _ := nofun
  body _ _ := nofun
  output _ _ := nofun
  fallback _ _ _ _ _ := nofun

/-- A leaf that is a text is read at a mark, or between brackets or parentheses. -/
theorem mark_or_inside {commands : Commands} {c : Cursor} {p : Parsed Expr c}
    (hb : bare commands false c = .ok p) {s : String} {span : Span}
    (hp : p.value = .leaf (.value (.text s)) span) :
    (∃ (q : Quote) (cs : List Char), c.rest = q.char :: cs) ∨
      ∃ (d : Cursor) (r : Parsed Expr d), d.rest.length < c.rest.length ∧
        (∀ source, c.In source → d.In source) ∧ sequence commands d = .ok r ∧ r.value = p.value := by
  have operands : Operands (· ≠ .leaf (.value (.text s)) span) := operands_ne_text
  have no (h : Yields (· ≠ .leaf (.value (.text s)) span) (.ok p)) : False := h p rfl hp
  rw [bare] at hb
  split at hb
  · exact (no (hb ▸ operands.yields_number c)).elim
  split at hb
  · exact (no (hb ▸ operands.yields_substitution c)).elim
  · exact (no (hb ▸ (operands.yields_percentSubstitution _).since _)).elim
  -- a dollar sign, which an expression in brackets may follow
  · split at hb
    · cases hb
    · next d hd he =>
      obtain ⟨rfl, -⟩ := Cursor.eq_advance_of_eat? he
      split at hb
      · next inside hi he =>
        obtain ⟨rfl, -⟩ := Cursor.eq_advance_of_eat? he
        obtain ⟨r, hr, hb⟩ := ok_of_bind hb
        dsimp only at hb
        split at hb
        · cases hb
        split at hb
        · cases hb
        cases hb
        refine .inr ⟨_, r, ?_, fun source hs => ?_, hr, rfl⟩
        · exact Nat.lt_of_le_of_lt (Cursor.pastBlanks _).2 (Nat.lt_trans hi hd)
        · have hin : (((c.advance 1).advance 1).note .bracketed).In source :=
            (hs.advance 1).advance 1
          exact hin.pastBlanks
      · exact (no (hb ▸ (operands.yields_output _ _).since _)).elim
      · exact (no (hb ▸ (operands.yields_body _ _).since _)).elim
  -- an expression in parentheses
  · split at hb
    · cases hb
    · next inside hi he =>
      obtain ⟨rfl, -⟩ := Cursor.eq_advance_of_eat? he
      obtain ⟨r, hr, hb⟩ := ok_of_bind hb
      dsimp only at hb
      split at hb
      · cases hb
      cases hb
      exact .inr ⟨_, r, hi, fun source hs => hs.advance 1, hr, rfl⟩
  -- a mark, or the first character of a name
  · next ch _ _ _ _ hc =>
    split at hb
    · next hq =>
      obtain ⟨q, rfl⟩ := exists_char hq
      exact .inl ⟨q, List.head?_eq_some_iff.mp hc⟩
    split at hb
    · cases hb
      cases hp
    · cases hb
  · cases hb

/-- **A leaf that is a text** stands where it is, between two marks. -/
theorem stands_of_read {source : List Char} {commands : Commands} {k : Precedence} {c : Cursor}
    (hc : c.In source) {p : Parsed Expr c} (h : k.read commands false c = .ok p) {s : String}
    {span : Span} (hp : p.value = .leaf (.value (.text s)) span) : Stands source s.toList span := by
  induction hn : c.rest.length using Nat.strongRecOn generalizing c k with
  | ind n ih =>
      subst hn
      obtain ⟨b, hb, hv, -⟩ := bare_of_read (Precedence.leaf_alone h hp)
      have hs := hc.pastBlanks
      rw [hv] at hp
      obtain ⟨q, cs, hq⟩ | ⟨d, r, hd, hi, hr, he⟩ := mark_or_inside hb hp
      · obtain ⟨inner, rest, hm, rfl, ht⟩ := spells_of_bare hq hb hp
        obtain ⟨before, hbefore, hpos⟩ := hs
        refine ⟨q, before, inner, rest, by rw [hbefore, hm], hpos, ?_, ht⟩
        rw [Cursor.spanTo, Cursor.advance, hpos, hm, List.take_left]
      · exact ih _ (Nat.lt_of_lt_of_le hd c.pastBlanks.2) (hi _ hs) (k := .sequence) hr
          (he.trans hp) rfl

/-- A source between marks is read as its text. -/
theorem parse_literal (commands : Commands) (q : Quote) (s : String) :
    parse commands (q.literal s) =
      (.ok (.leaf (.value (.text s)) ⟨0, Text.byteSize (q.literal s).toList⟩), []) := by
  have hsource : (q.literal s).toList = (Formula.text q s).chars := String.toList_ofList
  have hstart : start (q.literal s) = .ofString (q.literal s) :=
    start_eq (by rw [hsource]; cases q <;> rfl)
  have hrest : (start (q.literal s)).rest = (Formula.text q s).chars ++ [] := by
    rw [hstart, List.append_nil]
    exact hsource
  obtain ⟨p, hb, hv, hn⟩ := bare_of_written commands false q s hrest
  have hend : p.next.rest = [] := by rw [hn, Cursor.rest_advance_length hrest]
  have hu : unary? (start (q.literal s)).rest = none := by
    rw [hrest]
    cases q <;> rfl
  rw [parse_alone hu hb (by rw [hend]; rfl), hv, hn, hstart]
  simp [Cursor.spanTo, Cursor.advance, Cursor.ofString, hsource]

/-- **Literals.**  Every text, written between marks, is a source that compiles to the one instruction
that pushes it, and nothing is remarked.  And where one instruction that pushes a text is all of a
program, the text is spelled at its place in the source between two marks. -/
theorem literal_compiles :
    (∀ (q : Quote) (s : String) (m : Machine),
      Machine.compile (q.literal s) m = .ok (.ok ⟨q.literal s,
        #[⟨.push (.text s), ⟨0, Text.byteSize (q.literal s).toList⟩⟩]⟩) m) ∧
    ∀ (source t : String) (span : Span) (m m' : Machine),
      Machine.compile source m = .ok (.ok ⟨source, #[⟨.push (.text t), span⟩]⟩) m' →
        Stands source.toList t.toList span := by
  refine ⟨fun q s m => ?_, fun source t span m m' h => ?_⟩
  · have hp := parse_literal m.session.findCommand? q s
    rw [Machine.compile_apply, Machine.remarked, Program.compile_of_parse hp]
    rfl
  · rw [Machine.compile_apply, Program.compile_fst] at h
    cases hp : (parse m.session.findCommand? source).1 with
    | error e =>
        rw [hp] at h
        cases h
    | ok e =>
        rw [hp] at h
        obtain ⟨hprogram, -⟩ := EStateM.Result.ok.inj h
        have hcode : e.code m.settings.optimize 0 = [⟨.push (.text t), span⟩] :=
          congrArg (·.code.toList) (Except.ok.inj hprogram)
        obtain ⟨p, hs, hv⟩ := sequence_of_parse hp
        rw [Expr.leaf_of_text hcode] at hv
        exact stands_of_read (k := .sequence) (Cursor.ofString_in source) hs hv

/-- A text with an apostrophe and a backslash in it. -/
theorem literal_compiles_escaped :
    single.literal "it's \\" = "'it\\'s \\\\'" ∧
      Machine.compile "'it\\'s \\\\'" {} = .ok (.ok ⟨"'it\\'s \\\\'",
        #[⟨.push (.text "it's \\"), ⟨0, 10⟩⟩]⟩) {} ∧
      Stands "'it\\'s \\\\'".toList "it's \\".toList ⟨0, 10⟩ := by
  have hs : single.literal "it's \\" = "'it\\'s \\\\'" := by decide
  have hn : Text.byteSize (single.literal "it's \\").toList = 10 := by decide
  obtain ⟨literals, stands⟩ := literal_compiles
  have hc := literals .single "it's \\" {}
  rw [hn, hs] at hc
  exact ⟨hs, hc, stands _ _ _ _ _ hc⟩

end Quote

end ExprEngine
