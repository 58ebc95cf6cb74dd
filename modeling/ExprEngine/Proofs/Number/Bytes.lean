import ExprEngine.Number.Literal
import ExprEngine.Proofs.Text.Bytes

/-!
# Bytes of numbers

A number is written in ASCII: reading one stops at the first character that is not, whatever stands
behind it.  Blanks may stand in front of a number, but not in it.

* `Literal.parse_append`: what comes behind a blank is not read, if the number starts before.
* `Literal.parse_asciiOnly`: a number is read off the bytes of a text as it is read off its
  characters.
-/

namespace ExprEngine

open Text

namespace Literal

theorem isSign_ofMarks : OfMarks Literal.isSign := by
  intro c h
  simp only [Literal.isSign, Bool.or_eq_true, beq_iff_eq] at h
  rcases h with rfl | rfl <;> rfl

theorem isSign_ofAscii : OfAscii Literal.isSign := fun c h =>
  isAscii_of_isMark (isSign_ofMarks c h)

/-- The sign of an exponent and what follows it. -/
def exponentSign : List Char → Bool × List Char
  | '+' :: ds => (false, ds)
  | '-' :: ds => (true, ds)
  | ds => (false, ds)

theorem exponentSign_cons (c : Char) (cs : List Char) :
    exponentSign (c :: cs) = if isSign c then (c == '-', cs) else (false, c :: cs) := by
  by_cases hp : c = '+'
  · subst hp
    rfl
  by_cases hm : c = '-'
  · subst hm
    rfl
  rw [exponentSign.eq_3 _ (fun _ h => hp (List.cons.inj h).1) fun _ h => hm (List.cons.inj h).1]
  simp [isSign, hp, hm]

variable {post : List Char} (hp : Ends post) (cs : List Char)

include hp

theorem spanDigits_append :
    spanDigits (cs ++ post) = ((spanDigits cs).1, (spanDigits cs).2 ++ post) := by
  obtain ⟨ht, hd⟩ := isDigit_ofMarks.takeWhile_append hp cs
  rw [spanDigits, ht, hd]
  rfl

theorem spanFraction_append :
    spanFraction (cs ++ post) = ((spanFraction cs).1, (spanFraction cs).2 ++ post) := by
  cases cs with
  | nil => exact spanFraction.eq_2 post fun _ => hp.ne rfl
  | cons c cs =>
      by_cases hc : c = '.'
      · subst hc
        exact spanDigits_append hp cs
      · have hne : ∀ ds, spanFraction (c :: ds) = ([], c :: ds) := fun ds =>
          spanFraction.eq_2 _ fun _ h => hc (List.cons.inj h).1
        rw [List.cons_append, hne, hne]
        rfl

omit hp in
/-- The exponent behind its letter. -/
theorem spanExponent_cons {c : Char} (hc : c = 'e' ∨ c = 'E') :
    spanExponent (c :: cs) =
      match spanDigits (exponentSign cs).2 with
      | ([], _) => (0, c :: cs)
      | (ds, rest) => (Binary.signed (exponentSign cs).1 (Decimal.value ds), rest) := by
  rcases hc with rfl | rfl <;> rfl

theorem exponentSign_append :
    exponentSign (cs ++ post) = ((exponentSign cs).1, (exponentSign cs).2 ++ post) := by
  cases cs with
  | nil => exact exponentSign.eq_3 post (fun _ => hp.ne rfl) fun _ => hp.ne rfl
  | cons c cs =>
      rw [List.cons_append, exponentSign_cons, exponentSign_cons]
      split <;> rfl

omit hp in
theorem spanExponent_other (h : ∀ c, c = 'e' ∨ c = 'E' → cs.head? ≠ some c) :
    spanExponent cs = (0, cs) := by
  unfold spanExponent
  split
  · exact absurd rfl (h 'e' (.inl rfl))
  · exact absurd rfl (h 'E' (.inr rfl))
  · rfl

theorem spanExponent_append :
    spanExponent (cs ++ post) = ((spanExponent cs).1, (spanExponent cs).2 ++ post) := by
  cases cs with
  | nil =>
      refine spanExponent_other post fun c hc h => ?_
      have ha := hp c h
      rcases hc with rfl | rfl <;> cases ha
  | cons c cs =>
      by_cases hc : c = 'e' ∨ c = 'E'
      · rw [List.cons_append, spanExponent_cons _ hc, spanExponent_cons _ hc,
          exponentSign_append hp, spanDigits_append hp]
        rcases spanDigits (exponentSign cs).2 with ⟨_ | ⟨d, ds⟩, rest⟩ <;> rfl
      · have hne : ∀ ds, spanExponent (c :: ds) = (0, c :: ds) := fun ds =>
          spanExponent_other _ fun d hd h => hc (Option.some.inj h ▸ hd)
        rw [List.cons_append, hne, hne]
        rfl

theorem spanReal_append :
    spanReal (cs ++ post) = ((spanReal cs).1, (spanReal cs).2 ++ post) := by
  simp only [spanReal, spanDigits_append hp, spanFraction_append hp, spanExponent_append hp]

omit hp in
/-- What was read in front of more text. -/
def resumed {α : Type} (post : List Char) (x : Except NumberError (α × List Char)) :
    Except NumberError (α × List Char) :=
  x.map fun r => (r.1, r.2 ++ post)

theorem real_append (negative : Bool) :
    real negative (cs ++ post) = resumed post (real negative cs) := by
  simp only [real, spanReal_append hp]
  split <;> rfl

theorem clockSeconds_append (sec : Int64) :
    clockSeconds sec (cs ++ post) = resumed post (clockSeconds sec cs) := by
  cases cs with
  | nil => exact clockSeconds.eq_2 sec post fun _ => hp.ne rfl
  | cons c cs =>
      by_cases hc : c = ':'
      · subst hc
        simp only [List.cons_append, clockSeconds, spanDigits_append hp, bind, Except.bind]
        cases clockPart 1 (spanDigits cs).1 with
        | error e => rfl
        | ok n =>
            dsimp only
            cases clockSum sec n <;> rfl
      · have hne : ∀ ds, clockSeconds sec (c :: ds) = .ok (sec, c :: ds) := fun ds =>
          clockSeconds.eq_2 _ _ fun _ h => hc (List.cons.inj h).1
        rw [List.cons_append, hne, hne]
        rfl

theorem clockMinutes_append (sec : Int64) :
    clockMinutes sec (cs ++ post) = resumed post (clockMinutes sec cs) := by
  unfold clockMinutes
  rw [spanDigits_append hp]
  rcases spanDigits cs with ⟨_ | ⟨d, ds⟩, rest⟩
  · rfl
  · dsimp only [bind, Except.bind]
    cases clockPart 60 (d :: ds) with
    | error e => rfl
    | ok n =>
        dsimp only
        cases clockSum sec n with
        | error e => rfl
        | ok k => exact clockSeconds_append hp rest k

theorem clock_append (negative : Bool) (hours : List Char) :
    clock negative hours (cs ++ post) = resumed post (clock negative hours cs) := by
  unfold clock
  dsimp only [bind, Except.bind]
  cases clockPart 3600 hours with
  | error e => rfl
  | ok n =>
      dsimp only
      rw [clockMinutes_append hp]
      cases clockMinutes n cs with
      | error e => rfl
      | ok r =>
          dsimp only [resumed, Except.map]
          rw [spanFraction_append hp]
          rfl

omit hp in
/-- Digits with no sign of a decimal, a time or an exponent behind them. -/
theorem unsigned_whole (negative : Bool)
    (h : ∀ c, (spanDigits cs).2.head? = some c → c ∉ [':', '.', 'e', 'E']) :
    unsigned negative cs =
      match Word.checked (Decimal.value (spanDigits cs).1) with
      | some n => .ok (.int (if negative then -n else n), (spanDigits cs).2)
      | none => real negative cs := by
  unfold unsigned
  dsimp only
  split
  · next hc => exact absurd (by decide) (h ':' (by rw [hc]; rfl))
  · next hc => exact absurd (by decide) (h '.' (by rw [hc]; rfl))
  · next hc => exact absurd (by decide) (h 'e' (by rw [hc]; rfl))
  · next hc => exact absurd (by decide) (h 'E' (by rw [hc]; rfl))
  · rfl

omit hp in
/-- Digits with a point behind them. -/
theorem unsigned_point (negative : Bool) {rest : List Char}
    (h : (spanDigits cs).2 = '.' :: rest) :
    unsigned negative cs =
      match Word.checked (Decimal.value (spanDigits cs).1) with
      | some sec =>
        if 6 < (spanDigits rest).1.length || (spanDigits rest).2.head? == some 'e' ||
          (spanDigits rest).2.head? == some 'E' then real negative cs
        else .ok (pair negative sec (microseconds (spanDigits rest).1), (spanDigits rest).2)
      | none => real negative cs := by
  unfold unsigned
  dsimp only
  rw [h]
  rfl

theorem unsigned_append (negative : Bool) :
    unsigned negative (cs ++ post) = resumed post (unsigned negative cs) := by
  have hreal := real_append hp cs negative
  have hds := spanDigits_append hp cs
  by_cases h : ∀ c, (spanDigits cs).2.head? = some c → c ∉ [':', '.', 'e', 'E']
  · have h' : ∀ c, (spanDigits (cs ++ post)).2.head? = some c → c ∉ [':', '.', 'e', 'E'] := by
      intro c hc
      rw [hds] at hc
      cases hr : (spanDigits cs).2 with
      | nil =>
          rw [hr] at hc
          have ha := hp c hc
          intro hm
          simp only [List.mem_cons, List.not_mem_nil, or_false] at hm
          rcases hm with rfl | rfl | rfl | rfl <;> cases ha
      | cons d rest =>
          rw [hr] at hc
          exact h c (hr ▸ hc)
    rw [unsigned_whole _ _ h, unsigned_whole _ _ h', hds]
    cases Word.checked (Decimal.value (spanDigits cs).1) with
    | none => exact hreal
    | some n => rfl
  · simp only [Classical.not_forall] at h
    obtain ⟨c, hc, hm⟩ := h
    obtain ⟨rest, hr⟩ : ∃ rest, (spanDigits cs).2 = c :: rest := by
      cases hr : (spanDigits cs).2 with
      | nil => rw [hr] at hc; cases hc
      | cons d rest => rw [hr] at hc; cases hc; exact ⟨rest, rfl⟩
    have hr' : (spanDigits (cs ++ post)).2 = c :: (rest ++ post) := by rw [hds, hr]; rfl
    simp only [List.mem_cons, List.not_mem_nil, or_false, Classical.not_not] at hm
    rcases hm with rfl | rfl | rfl | rfl
    · unfold unsigned
      dsimp only
      rw [hr, hr', hds]
      exact clock_append hp rest negative _
    · rw [unsigned_point _ _ hr, unsigned_point _ _ hr', hds, spanDigits_append hp,
        hp.head?_beq rfl, hp.head?_beq rfl]
      cases Word.checked (Decimal.value (spanDigits cs).1) with
      | none => exact hreal
      | some n =>
          dsimp only
          split
          · exact hreal
          · rfl
    all_goals
      unfold unsigned
      dsimp only
      rw [hr, hr']
      exact hreal

/-- What comes behind a blank is not read, if no blanks are skipped there. -/
theorem parse_append
    (hb : (cs ++ post).dropWhile Ascii.isBlank = cs.dropWhile Ascii.isBlank ++ post) :
    parse (cs ++ post) = parse cs := by
  obtain ⟨ht, hd⟩ := isSign_ofMarks.takeWhile_append hp (cs.dropWhile Ascii.isBlank)
  unfold parse
  dsimp only [bind, Except.bind]
  rw [hb, ht, hd, unsigned_append hp]
  cases unsigned _ ((cs.dropWhile Ascii.isBlank).dropWhile isSign) with
  | error e => rfl
  | ok r =>
      dsimp only [resumed, Except.map]
      rw [List.length_append, List.length_append, Nat.add_sub_add_right]

omit hp in
theorem parse_asciiOnly : AsciiOnly parse :=
  .of_append fun cs _ hp =>
    parse_append (fun c hc => by simp [isMark, hp c hc]) cs
      (takeWhile_append_of_head (fun c hc => isBlank_ofAscii.eq_false (hp c hc)) cs).2

omit hp in
theorem length_of_parse {cs : List Char} {n : Number} {used : Nat}
    (h : parse cs = .ok (n, used)) : used ≤ cs.length := by
  unfold parse at h
  dsimp only [bind, Except.bind] at h
  split at h
  · cases h
  · cases h
    exact Nat.sub_le _ _

end Literal

end ExprEngine
