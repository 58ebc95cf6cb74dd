import ExprEngine.Proofs.Grammar.Reading
import ExprEngine.Proofs.Number.Reading

/-!
# Reading leaves

Names, whole numbers and quoted texts are read back from how they are written.

* `Quote.quotedText_written`: a text between marks, whatever its characters.
* `Literal.parse_digits`: the digits of a number that is a word.
* `Grammar.Reads.name`, `Grammar.Reads.number`, `Grammar.Reads.text`: the leaves of formulas.
-/

namespace ExprEngine

open Grammar

namespace Ascii

theorem isDigit_of_isWordStart {c : Char} (h : isWordStart c = true) : c.isDigit = false := by
  simp only [isWordStart, Bool.or_eq_true, beq_iff_eq] at h
  rcases h with h | rfl
  · refine Bool.eq_false_iff.mpr fun hd => ?_
    have hletter := toNat_of_isAlpha h
    have hdigit := toNat_of_isDigit hd
    omega
  · rfl

end Ascii

/-- What is quoted is read back, with no needless escape. -/
theorem Quote.quotedText_written (q : Quote) (s rest : List Char) :
    quotedText q.char (q.written s ++ q.char :: rest) =
      { text := s, length? := some ((q.written s).length + 1) } := by
  have hq : q.char ≠ '\\' := by cases q <;> decide
  induction s with
  | nil =>
      show quotedText q.char (q.char :: rest) = _
      cases rest <;> simp [quotedText, written]
  | cons c s ih =>
      by_cases hc : c = q.char ∨ c = '\\'
      · have hw : q.written (c :: s) = '\\' :: c :: q.written s := by simp [written, hc]
        simp [hw, quotedText, hq.symm, hc, ih, QuotedText.cons]
      · have hw : q.written (c :: s) = c :: q.written s := by simp [written, hc]
        obtain ⟨hcq, hcb⟩ := not_or.mp hc
        obtain ⟨d, ds, hd⟩ : ∃ d ds, q.written s ++ q.char :: rest = d :: ds :=
          List.exists_cons_of_ne_nil (by simp)
        rw [hd] at ih
        simp [hw, hd, quotedText, hcq, hcb, ih, QuotedText.cons]

theorem Literal.parse_digits {n : Nat} (hn : n < 0x8000000000000000) {rest : List Char}
    (hr : Stops rest) :
    Literal.parse (Decimal.digits n ++ rest) =
      .ok (.int (Int64.ofNat n), (Decimal.digits n).length) := by
  have hf : Word.Fits n := ⟨by simp only [Word.least]; omega, by simp only [Word.greatest]; omega⟩
  have hword : ∀ {ch}, rest.head? = some ch → ch.isDigit = false ∧ ch ≠ 'e' ∧ ch ≠ 'E' := by
    intro ch h
    have hw := (hr ch h).1
    refine ⟨?_, ?_, ?_⟩
    · simp only [Ascii.isWord, Char.isAlphanum, Bool.or_eq_false_iff] at hw
      exact hw.1.2
    all_goals
      rintro rfl
      cases hw
  have hd := Decimal.allDigits_digits n
  have hu := unsigned_digits (negated []) hd (fun ch h => (hword h).1)
    (fun ch h => by simp [(hr ch h).2.1, (hr ch h).2.2, (hword h).2])
  have ho : Opens [] (Decimal.digits n ++ rest) := opens_digits hd Nat.toDigits_ne_nil
  have hs : ∀ c ∈ ([] : List Char), isSign c = true := fun _ hc => absurd hc List.not_mem_nil
  have hp := parse_signs hs ho hu
  rw [asInteger, Decimal.value_digits, Word.checked_of_fits hf] at hp
  simpa [negated, Except.map, ← Int64.ofInt_eq_ofNat] using hp

namespace Grammar

variable {commands : Commands} {f g h : Formula} {cs ds : List Char}

/-! ### Leaves -/

/-- A primary operand is read if it is read without blanks in front. -/
theorem Reads.primary {f : Formula}
    (h : ∀ slash (c : Cursor) rest, c.rest = cs ++ rest → Stops rest →
      ∃ p : Parsed Expr c, bare commands slash c = .ok p ∧ Renders commands f p.value ∧
        p.next.rest = rest) :
    Reads commands .primary f cs := by
  intro slash c rest hc hr
  rw [← Cursor.rest_pastBlanks] at hc
  obtain ⟨p, he, hp, hn⟩ := h slash c.pastBlanks.val rest hc hr.stops
  refine ⟨_, by rw [Precedence.read, Grammar.primary, he]; rfl, hp, ?_⟩
  rw [← hn]
  exact p.next.rest_pastBlanks

theorem Reads.name (x : Identifier) : Reads commands .primary (.name x) x.chars := by
  refine .primary fun slash c rest hc hr => ?_
  have hne : ∀ ch, Ascii.isWordStart ch = false → x.first ≠ ch := by
    rintro ch hch rfl
    cases hch.symm.trans x.starts
  have hn : startsNumber c.rest = false := by
    rw [hc, Identifier.chars, List.cons_append, startsNumber]
    · exact Ascii.isDigit_of_isWordStart x.starts
    · exact fun _ _ h => absurd h (hne '.' rfl)
  have hq : Ascii.isQuote x.first = false := by
    simp [Ascii.isQuote, hne '"' rfl, hne '\'' rfl, hne '`' rfl]
  have hp : c.peek? = some x.first := by rw [Cursor.peek?, hc]; rfl
  have hall : ∀ ch ∈ x.chars, Ascii.isWord ch = true := by
    intro ch hch
    rcases List.mem_cons.mp hch with rfl | hch
    · exact Ascii.isWord_of_isWordStart x.starts
    · exact x.goesOn ch hch
  have ht : c.takeWhile Ascii.isWord = x.chars ∧ c.rest.dropWhile Ascii.isWord = rest := by
    rw [Cursor.takeWhile, hc, List.takeWhile_append_of_pos hall, List.dropWhile_append_of_pos hall]
    cases rest with
    | nil => simp
    | cons ch rest => simp [(hr ch rfl).1]
  refine ⟨Grammar.name slash c, ?_, ⟨fun start => ?_, ?_⟩, ?_⟩
  · rw [bare_of_other commands slash (by simp [hn]) hp (hne _ rfl) (hne _ rfl) (hne _ rfl)
      (hne _ rfl), if_neg (by simp [hq]), if_pos x.starts]
  · simp only [Grammar.name, ht.1]
    rfl
  · simp only [Grammar.name, ht.1]
    rfl
  · rw [← ht.2, ← Cursor.rest_skipWhile, Grammar.name]
    dsimp only
    split <;> rfl

theorem Reads.number (n : Fin 0x8000000000000000) :
    Reads commands .primary (.number n) (Decimal.digits n) := by
  refine .primary fun slash c rest hc hr => ?_
  obtain ⟨ch, cs, hd, hdigit⟩ := Decimal.digits_eq_cons n
  have hn : startsNumber c.rest = true := by
    rw [hc, hd, List.cons_append, startsNumber]
    · exact hdigit
    · rintro ch' cs' rfl
      cases hdigit
  have hl := Literal.parse_digits n.isLt hr
  rw [← hc] at hl
  refine ⟨⟨.leaf (.value (.int (Int64.ofNat n)))
    (c.spanTo (c.advance (Decimal.digits n).length)), c.advance (Decimal.digits n).length,
    by simp⟩, ?_, ⟨fun start => rfl, rfl⟩, Cursor.rest_advance_length hc⟩
  rw [bare, if_pos hn, Grammar.number, hl]
  rfl

/-- A quoted text starts with its mark. -/
theorem bare_of_quote (commands : Commands) (slash : Bool) {c : Cursor} {q : Quote}
    (hc : c.rest = q.char :: cs) : bare commands slash c = quoted q.char c := by
  have hp : c.peek? = some q.char := by rw [Cursor.peek?, hc]; rfl
  have hn : startsNumber c.rest = false := by
    rw [hc]
    cases q <;> rfl
  rw [bare_of_other commands slash (by simp [hn]) hp (by cases q <;> decide) (by cases q <;> decide)
    (by cases q <;> decide) (by cases q <;> decide), if_pos (by cases q <;> rfl)]

/-- A text between marks is read, and nothing is remarked. -/
theorem bare_of_written (commands : Commands) (slash : Bool) (q : Quote) (s : String) {c : Cursor}
    (hc : c.rest = (Formula.text q s).chars ++ rest) :
    ∃ p, bare commands slash c = .ok p ∧
      p.value = .leaf (.value (.text s)) (c.spanTo (c.advance (Formula.text q s).chars.length)) ∧
      p.next = c.advance (Formula.text q s).chars.length := by
  have hc' : c.rest = q.char :: (q.written s.toList ++ q.char :: rest) := by
    rw [hc]
    simp [Formula.chars]
  have hl : (Formula.text q s).chars.length = 1 + ((q.written s.toList).length + 1) := by
    simp [Formula.chars]
    omega
  have hd : c.rest.drop 1 = q.written s.toList ++ q.char :: rest := by rw [hc']; rfl
  refine ⟨⟨.leaf (.value (.text s)) (c.spanTo (c.advance (Formula.text q s).chars.length)),
    c.advance (Formula.text q s).chars.length, by simp⟩, ?_, rfl, rfl⟩
  rw [bare_of_quote commands slash hc', quoted, hd, q.quotedText_written, hl]
  simp only [List.foldl_nil, String.ofList_toList]
  rfl

theorem Reads.text (q : Quote) (s : String) :
    Reads commands .primary (.text q s) (Formula.text q s).chars := by
  refine .primary fun slash c rest hc hr => ?_
  obtain ⟨⟨value, next, le⟩, hb, rfl, rfl⟩ := bare_of_written commands slash q s hc
  exact ⟨_, hb, ⟨fun start => rfl, rfl⟩, Cursor.rest_advance_length hc⟩

end Grammar

end ExprEngine
