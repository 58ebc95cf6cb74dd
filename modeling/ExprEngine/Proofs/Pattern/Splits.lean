import ExprEngine.Proofs.Pattern.Faults
import ExprEngine.Proofs.Pattern.Steps

/-!
# What a glob matches

A glob without alternations matches a text if the text falls into parts that its tokens take, one
each.  The matcher finds the parts by trying, passes rows of stars and question marks at once, skips
places where it cannot go on, and gives up when its budget is spent; the budget allows for one star
each.

* `Spans`: tokens take a text up to what is left of it.
* `skipStars_some`: a row of stars and question marks, behind a star, comes to one star.
* `agrees`: the matcher against `Spans`, outside and inside an alternation.
* `isMatch_iff_parts`: what a glob without alternations matches.
-/

namespace ExprEngine.Glob

open Glyph

/-- The tokens take the text up to what is left. -/
def Spans (inWord : Bool) (ts : List Token) (text left : List UInt8) : Prop :=
  ∃ taken, text = taken ++ left ∧ Splits inWord ts taken

section

variable {inWord : Bool} {ts : List Token} {text left : List UInt8}

theorem spans_nil : Spans inWord [] text left ↔ text = left := by
  simp only [Spans, splits_nil]
  constructor
  · rintro ⟨_, rfl, rfl⟩
    rfl
  · rintro rfl
    exact ⟨[], rfl, rfl⟩

theorem spans_to_end : Spans inWord ts text [] ↔ Splits inWord ts text := by
  simp [Spans]

theorem spans_byte {t : Token} (h : t ≠ .star) :
    Spans inWord (t :: ts) text left ↔
      ∃ c more, text = c :: more ∧ t.takesByte inWord c = true ∧ Spans inWord ts more left := by
  simp only [Spans, splits_byte h]
  constructor
  · rintro ⟨_, rfl, c, more, rfl, hc, hs⟩
    exact ⟨c, more ++ left, rfl, hc, more, rfl, hs⟩
  · rintro ⟨c, _, rfl, hc, more, rfl, hs⟩
    exact ⟨c :: more, rfl, c, more, rfl, hc, hs⟩

theorem spans_star :
    Spans inWord (.star :: ts) text left ↔
      ∃ part more, text = part ++ more ∧ (inWord = true → byte ' ' ∉ part) ∧
        Spans inWord ts more left := by
  simp only [Spans, splits_cons]
  constructor
  · rintro ⟨_, rfl, part, more, rfl, hp, hs⟩
    exact ⟨part, more ++ left, List.append_assoc .., hp, more, rfl, hs⟩
  · rintro ⟨part, _, rfl, hp, more, rfl, hs⟩
    exact ⟨part ++ more, (List.append_assoc ..).symm, part, more, rfl, hp, hs⟩

theorem spans_star_star :
    Spans inWord (.star :: .star :: ts) text left ↔ Spans inWord (.star :: ts) text left := by
  simp only [spans_star]
  constructor
  · rintro ⟨part, _, rfl, hp, part', more, rfl, hp', hs⟩
    refine ⟨part ++ part', more, (List.append_assoc ..).symm, fun hw => ?_, hs⟩
    rw [List.mem_append, not_or]
    exact ⟨hp hw, hp' hw⟩
  · rintro ⟨part, more, rfl, hp, hs⟩
    exact ⟨[], part ++ more, rfl, fun _ => List.not_mem_nil, part, more, rfl, hp, hs⟩

theorem not_space_iff {c : UInt8} :
    (!(inWord && c == byte ' ')) = true ↔ (inWord = true → byte ' ' ∉ [c]) := by
  cases inWord with
  | false => simp
  | true => simpa using not_congr eq_comm

/-- A star before a question mark: the question mark may take its byte first. -/
theorem spans_star_any :
    Spans inWord (.star :: .any :: ts) text left ↔
      ∃ c more, text = c :: more ∧ (inWord = true → byte ' ' ∉ [c]) ∧
        Spans inWord (.star :: ts) more left := by
  simp only [spans_star, spans_byte (t := .any) nofun, Token.takesByte, not_space_iff]
  constructor
  · rintro ⟨part, _, rfl, hp, c, more, rfl, hc, hs⟩
    cases part with
    | nil => exact ⟨c, more, rfl, hc, [], more, rfl, fun _ => List.not_mem_nil, hs⟩
    | cons b part =>
        refine ⟨b, part ++ c :: more, rfl, fun hw hb => hp hw ?_, part ++ [c], more, by simp,
          fun hw hb => ?_, hs⟩
        · exact List.mem_cons.mpr (.inl (List.mem_singleton.mp hb))
        · rcases List.mem_append.mp hb with hb | hb
          · exact hp hw (List.mem_cons_of_mem b hb)
          · exact hc hw hb
  · rintro ⟨c, _, rfl, hc, part, more, rfl, hp, hs⟩
    -- The last byte of the run goes to the question mark instead.
    rcases List.eq_nil_or_concat' part with rfl | ⟨front, b, rfl⟩
    · exact ⟨[], c :: more, rfl, fun _ => List.not_mem_nil, c, more, rfl, hc, hs⟩
    · refine ⟨c :: front, b :: more, by simp, fun hw hb => ?_, b, more, rfl, fun hw hb => ?_, hs⟩
      · rcases List.mem_cons.mp hb with hb | hb
        · exact hc hw (List.mem_singleton.mpr hb)
        · exact hp hw (List.mem_append_left _ hb)
      · exact hp hw (List.mem_append_right _ hb)

end

/-! ### Rows of stars and question marks -/

section

variable {inWord : Bool} {ts : List Token} {tail : List UInt8} {t : Place}

theorem eq_nil_of_spelling (h : spelling ts = []) : ts = [] :=
  spelling_injective h

theorem skipStars_of_not_wild {tok : Token} (h : tok.isWild = false) (room : Nat) :
    skipStars inWord room (spelling (tok :: ts) ++ tail) t =
      some (room, spelling (tok :: ts) ++ tail, t) := by
  rw [spelling_cons, List.append_assoc]
  exact skipStars_of_head (head?_of_not_wild h _).1 (head?_of_not_wild h _).2

/-- A row that asks for more bytes than there are is not taken behind a star. -/
theorem skipStars_none
    (h : skipStars inWord (spelling ts).length (spelling ts ++ tail) t = none) (left : List UInt8) :
    ¬Spans inWord (.star :: ts) t.rest left := by
  induction ts generalizing t with
  | nil => rw [spelling_nil, List.length_nil, skipStars_zero] at h; cases h
  | cons tok ts ih =>
      cases tok with
      | star =>
          rw [spelling_cons, Token.spelling_star, List.singleton_append, List.length_cons,
            List.cons_append, skipStars_star] at h
          rw [spans_star_star]
          exact ih h
      | any =>
          rw [spelling_cons, Token.spelling_any, List.singleton_append, List.length_cons,
            List.cons_append, skipStars_any] at h
          rw [spans_star_any]
          rintro ⟨c, more, ht, hc, hs⟩
          rw [← not_space_iff, Bool.not_eq_true'] at hc
          simp only [ht, hc, Bool.false_eq_true, if_false] at h
          exact ih h hs
      | ofClass | lit =>
          rw [skipStars_of_not_wild] at h
          · cases h
          · rfl

/-- What a row of stars and question marks comes to, behind a star. -/
theorem skipStars_some {r : Nat} {p : List UInt8} {u : Place}
    (h : skipStars inWord (spelling ts).length (spelling ts ++ tail) t = some (r, p, u)) :
    ∃ us, us <:+ ts ∧ (∀ tok ∈ us.head?, tok.isWild = false) ∧ r = (spelling us).length ∧
      p = spelling us ++ tail ∧
      ∀ left, Spans inWord (.star :: ts) t.rest left ↔ Spans inWord (.star :: us) u.rest left := by
  induction ts generalizing t with
  | nil =>
      rw [spelling_nil, List.length_nil, skipStars_zero] at h
      cases h
      exact ⟨[], List.suffix_refl _, nofun, rfl, rfl, fun _ => Iff.rfl⟩
  | cons tok ts ih =>
      cases tok with
      | star =>
          rw [spelling_cons, Token.spelling_star, List.singleton_append, List.length_cons,
            List.cons_append, skipStars_star] at h
          obtain ⟨us, hus, hh, hr, hp, hl⟩ := ih h
          exact ⟨us, hus.trans (List.suffix_cons _ _), hh, hr, hp,
            fun left => spans_star_star.trans (hl left)⟩
      | any =>
          rw [spelling_cons, Token.spelling_any, List.singleton_append, List.length_cons,
            List.cons_append, skipStars_any] at h
          split at h
          · cases h
          · next c more ht =>
            split at h
            · cases h
            · next hc =>
              obtain ⟨us, hus, hh, hr, hp, hl⟩ := ih h
              refine ⟨us, hus.trans (List.suffix_cons _ _), hh, hr, hp, fun left => ?_⟩
              rw [← hl left, spans_star_any, ht]
              constructor
              · rintro ⟨_, _, he, -, hs⟩
                cases he
                exact hs
              · intro hs
                rw [Bool.not_eq_true, ← Bool.not_eq_true', not_space_iff] at hc
                exact ⟨c, more, rfl, hc, hs⟩
      | ofClass | lit =>
          rw [skipStars_of_not_wild] at h
          · cases h
            exact ⟨_, List.suffix_refl _, by simp [Token.isWild], rfl, rfl, fun _ => Iff.rfl⟩
          · rfl

end

/-! ### The matcher -/

section

variable {inWord : Bool} {ts : List Token} {tail : List UInt8} {t : Place}

/-- Places that are passed over are places where the token cannot stand. -/
theorem mayStart_of_takesByte {tok : Token} {c : UInt8} {more : List UInt8}
    (hw : tok.isWild = false) (ho : tok.isBare (byte '{') = false) (ht : t.rest = c :: more)
    (hc : tok.takesByte false c = true) (cs : List UInt8) :
    mayStart (tok.spelling ++ cs) t = true := by
  cases tok with
  | star | any => cases hw
  | ofClass body closed =>
      simp only [Token.spelling_ofClass, List.cons_append, mayStart, ht]
      rw [if_neg (by decide), if_pos trivial]
  | lit g plain =>
      rw [Token.spelling_lit]
      cases g with
      | escaped b =>
          simp only [Glyph.spelling, List.cons_append, List.nil_append, mayStart, ht]
          rw [if_neg (by decide), if_neg (by decide), if_pos trivial]
          exact hc
      | bare b hb =>
          simp only [isPlain, isBare, Bool.not_eq_true', Bool.or_eq_false_iff,
            beq_eq_false_iff_ne] at plain
          have ho : b ≠ byte '{' := by simpa [Token.isBare, isBare] using ho
          simp only [Glyph.spelling, List.cons_append, List.nil_append, mayStart, ht]
          rw [if_neg ho, if_neg plain.2, if_neg hb]
          exact hc

/-- The number of bytes left of an alternative, for a pattern that stands in one. -/
def room (inWord : Bool) (n : Nat) : Option Nat :=
  if inWord then some n else none

theorem isSome_room (n : Nat) : (room inWord n).isSome = inWord := by
  cases inWord <;> rfl

theorem room_ne_zero {n : Nat} (h : 0 < n) : room inWord n ≠ some 0 := by
  cases inWord with
  | false => nofun
  | true => exact fun he => Nat.ne_of_gt h (Option.some.inj he)

theorem map_room (m n : Nat) : (room inWord (m + n)).map (· - m) = room inWord n := by
  cases inWord with
  | false => rfl
  | true => exact congrArg some (Nat.add_sub_cancel_left m n)

/-- What may be left where a pattern ends: nothing, or behind an alternative another word. -/
def Ends (inWord : Bool) (left : List UInt8) : Prop :=
  left = [] ∨ inWord = true ∧ left.head? = some (byte ' ')

/-- The matcher, at any place, finds out whether the tokens span what is there. -/
def Agrees (n : Nat) (inWord : Bool) (ts : List Token) (tail : List UInt8) : Prop :=
  ∀ t : Place, matchesAt n (room inWord (spelling ts).length) (spelling ts ++ tail) t = true ↔
    ∃ left, Spans inWord ts t.rest left ∧ Ends inWord left

variable {n : Nat}

theorem agrees_nil (htail : inWord = false → tail = []) : Agrees (n + 1) inWord [] tail := by
  intro t
  simp only [spans_nil, spelling_nil, List.length_nil, List.nil_append, exists_eq_left', Ends]
  cases inWord with
  | true =>
      change matchesAt (n + 1) (some 0) tail t = true ↔ _
      simp [matchesAt_ended, Place.endsWord_iff]
  | false =>
      rw [htail rfl]
      change matchesAt (n + 1) none [] t = true ↔ _
      simp [matchesAt_nil]

theorem agrees_byte {tok : Token} (hs : tok ≠ .star)
    (ho : inWord = false → tok.isBare (byte '{') = false)
    (h : Agrees (n + 1) inWord ts tail) : Agrees (n + 1) inWord (tok :: ts) tail := by
  intro t
  have hsome : tok.isBare (byte '{') = true →
      (room inWord (tok.spelling.length + (spelling ts).length)).isSome = true := by
    rw [isSome_room]
    intro ht
    cases inWord with
    | true => rfl
    | false => cases ht.symm.trans (ho rfl)
  rw [spelling_cons, List.length_append, List.append_assoc,
    matchesAt_token (room_ne_zero (Nat.add_pos_left tok.length_spelling_pos _)) hs hsome,
    Place.eats_iff, map_room, isSome_room]
  simp only [spans_byte hs, h _]
  constructor
  · rintro ⟨c, text, ht, hc, left, hl, he⟩
    exact ⟨left, ⟨c, text, ht, hc, hl⟩, he⟩
  · rintro ⟨left, ⟨c, text, ht, hc, hl⟩, he⟩
    exact ⟨c, text, ht, hc, left, hl, he⟩

/-- Outside an alternation nothing may be left. -/
theorem agrees_outside :
    Agrees n false ts [] ↔
      ∀ t : Place, matchesAt n none (spelling ts) t = true ↔ Spans false ts t.rest [] := by
  simp [Agrees, Ends, room]

theorem agrees_star_inWord (h : ∀ us, us <:+ ts → Agrees n true us tail) :
    Agrees (n + 1) true (.star :: ts) tail := by
  intro t
  rw [spelling_cons, Token.spelling_star, List.singleton_append, List.length_cons, List.cons_append]
  change matchesAt (n + 1) (some ((spelling ts).length + 1)) _ t = true ↔ _
  rw [matchesAt_star_inWord]
  constructor
  · rintro ⟨r, p, u, hk, v, hv, hm⟩
    obtain ⟨us, hus, -, rfl, rfl, hl⟩ := skipStars_some hk
    obtain ⟨left, hs, he⟩ := (h us hus v).mp hm
    obtain ⟨part, hp, hr⟩ := Place.exists_of_mem_withinWord hv
    exact ⟨left, (hl left).mpr (spans_star.mpr ⟨part, _, hr, fun _ => hp, hs⟩), he⟩
  · rintro ⟨left, hs, he⟩
    cases hk : skipStars true (spelling ts).length (spelling ts ++ tail) t with
    | none => exact absurd hs (skipStars_none hk left)
    | some skipped =>
        obtain ⟨r, p, u⟩ := skipped
        obtain ⟨us, hus, -, rfl, rfl, hl⟩ := skipStars_some hk
        obtain ⟨part, more, hr, hp, hs⟩ := spans_star.mp ((hl left).mp hs)
        obtain ⟨v, hv, rfl⟩ := Place.exists_mem_withinWord u.before (hp rfl) more
        exact ⟨_, _, u, rfl, v, hr ▸ hv, (h us hus v).mpr ⟨left, hs, he⟩⟩

theorem agrees_star_outside (ho : ∀ tok ∈ ts, tok.isBare (byte '{') = false)
    (h : ∀ us, us <:+ ts → Agrees n false us []) : Agrees (n + 1) false (.star :: ts) [] := by
  have h := fun us hus => agrees_outside.mp (h us hus)
  rw [agrees_outside]
  intro t
  rw [spelling_cons, Token.spelling_star, List.singleton_append, matchesAt_star]
  constructor
  · rintro ⟨r, p, u, hk, hp⟩
    have hk : skipStars false (spelling ts).length (spelling ts ++ []) t = some (r, p, u) := by
      rwa [List.append_nil]
    obtain ⟨us, hus, -, -, rfl, hl⟩ := skipStars_some hk
    rw [List.append_nil] at hp
    rw [hl, spans_star]
    obtain hp | ⟨v, hv, -, hm⟩ := hp
    · -- A star at the end takes all that is left.
      obtain rfl := eq_nil_of_spelling hp
      exact ⟨u.rest, [], (List.append_nil _).symm, nofun, spans_nil.mpr rfl⟩
    · obtain ⟨part, hr⟩ := Place.exists_of_mem_onward hv
      exact ⟨part, v.rest, hr, nofun, (h us hus v).mp hm⟩
  · intro hs
    cases hk : skipStars false (spelling ts).length (spelling ts ++ []) t with
    | none => exact absurd hs (skipStars_none hk [])
    | some skipped =>
        obtain ⟨r, p, u⟩ := skipped
        obtain ⟨us, hus, hw, -, rfl, hl⟩ := skipStars_some hk
        rw [List.append_nil, List.append_nil] at hk
        refine ⟨_, _, u, hk, ?_⟩
        obtain ⟨part, more, hr, -, hs⟩ := spans_star.mp ((hl []).mp hs)
        obtain ⟨v, hv, rfl⟩ := Place.exists_mem_onward u.before part more
        cases us with
        | nil => exact .inl rfl
        | cons tok us =>
            have hwild : tok.isWild = false := hw tok rfl
            obtain ⟨c, rest, hc, htok, -⟩ := (spans_byte (ne_star hwild)).mp hs
            refine .inr ⟨v, hr ▸ hv, ?_, (h _ hus v).mpr hs⟩
            rw [spelling_cons]
            exact mayStart_of_takesByte hwild (ho tok (hus.mem List.mem_cons_self)) hc htok _

/-- **The matcher tries what `Spans` says.**  A star goes on behind the whole row of stars and
question marks and takes one from the budget. -/
theorem agrees (hn : ts.count .star < n)
    (htail : inWord = false → tail = [] ∧ ∀ tok ∈ ts, tok.isBare (byte '{') = false) :
    Agrees n inWord ts tail := by
  induction n generalizing ts with
  | zero => exact absurd hn (Nat.not_lt_zero _)
  | succ n ihn =>
      induction ts with
      | nil => exact agrees_nil fun hw => (htail hw).1
      | cons tok ts ih =>
          have hrest : ∀ us, us <:+ ts →
              inWord = false → tail = [] ∧ ∀ tok ∈ us, tok.isBare (byte '{') = false :=
            fun us hus hw =>
              ⟨(htail hw).1, fun u hu => (htail hw).2 u (List.mem_cons_of_mem _ (hus.mem hu))⟩
          by_cases hs : tok = .star
          · subst hs
            rw [List.count_cons_self] at hn
            have hus : ∀ us, us <:+ ts → Agrees n inWord us tail := fun us hus =>
              ihn (Nat.lt_of_le_of_lt (hus.sublist.count_le _) (Nat.lt_of_succ_lt_succ hn))
                (hrest us hus)
            cases inWord with
            | true => exact agrees_star_inWord hus
            | false =>
                obtain ⟨rfl, ho⟩ := hrest ts (List.suffix_refl ts) rfl
                exact agrees_star_outside ho hus
          · rw [List.count_cons_of_ne hs] at hn
            exact agrees_byte hs (fun hw => (htail hw).2 tok List.mem_cons_self)
              (ih hn (hrest ts (List.suffix_refl ts)))

end

/-- **What a glob means.**  A pattern that the validator accepts and that does not end in the middle
of an escape has one reading.  If that opens no alternation and has at most 255 stars, the pattern
matches the texts that fall into parts its tokens take. -/
theorem isMatch_iff_parts {pattern : List UInt8} (accepted : check pattern = none)
    (ended : dangles pattern = false) :
    ∃ ts, spelling ts = pattern ∧ (∀ us, spelling us = pattern → us = ts) ∧
      ((∀ t ∈ ts, t.isBare (byte '{') = false) → ts.count .star ≤ 255 →
        ∀ text, isMatch pattern text = true ↔
          ∃ parts, parts.flatten = text ∧ List.Forall₂ (Token.Takes false) ts parts) := by
  obtain ⟨ts, rfl⟩ := exists_spelling accepted ended
  refine ⟨ts, rfl, fun us hu => spelling_injective hu, fun ho hc text => ?_⟩
  have h := agrees_outside.mp (agrees (Nat.lt_succ_of_le hc) fun _ => ⟨rfl, ho⟩) ⟨none, text⟩
  exact h.trans spans_to_end

/-- The pattern `a*[^b-d]?\*` on a text. -/
theorem isMatch_iff_parts_of_each_token :
    let pattern := ['a', '*', '[', '^', 'b', '-', 'd', ']', '?', '\\', '*'].map byte
    let text := ['A', 'b', 'b', 'e', 'Z', '*'].map byte
    check pattern = none ∧ dangles pattern = false ∧ isMatch pattern text = true := by
  intro pattern text
  let ts : List Token :=
    [.lit (mark 'a' (by decide)) (by decide), .star,
      .ofClass
        [mark '^' (by decide), mark 'b' (by decide), mark '-' (by decide), mark 'd' (by decide)]
        (by decide), .any, .lit (.escaped (byte '*')) (by decide)]
  have hts : spelling ts = pattern := by decide
  have accepted : check pattern = none := hts ▸ (check_spelling ts).mpr (by decide)
  obtain ⟨us, -, hu, h⟩ := isMatch_iff_parts accepted (by decide)
  obtain rfl := hu ts hts
  refine ⟨accepted, by decide, (h (by decide) (by decide) text).mpr ?_⟩
  refine ⟨[[byte 'A'], [byte 'b', byte 'b'], [byte 'e'], [byte 'Z'], [byte '*']], rfl, ?_⟩
  exact .cons ⟨_, rfl, by decide⟩ <| .cons nofun <| .cons ⟨_, rfl, by decide⟩ <|
    .cons ⟨_, rfl, by decide⟩ <| .cons ⟨_, rfl, by decide⟩ .nil

end ExprEngine.Glob
