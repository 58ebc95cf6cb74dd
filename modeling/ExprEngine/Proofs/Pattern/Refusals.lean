import ExprEngine.Proofs.Pattern.Passing

/-!
# Globs that can never match

The validator refuses what it says can never match.  It is right before an alternation.  Inside one
and behind one the matcher can do what the validator does not see: `Misjudged` lists the refusals
that are wrong, and `rejected_never_matches` says that all others are right.
-/

namespace ExprEngine.Glob

open Glyph

/-! ### The end of a word -/

/-- Where a word ends there may only be a space. -/
theorem Place.eq_space {t : Place} {c : UInt8} {text : List UInt8} (hc : t.rest = c :: text)
    (ht : t.endsWord = true) : c = byte ' ' := by
  rwa [endsWord, hc, beq_iff_eq] at ht

theorem val_of_eats {t : Place} {g : Glyph} {next : Place → Bool} (ht : t.endsWord = true)
    (h : t.eats (Ascii.sameLetter · g.val) next = true) : g.val = byte ' ' := by
  obtain ⟨c, text, hc, hok, -⟩ := Place.eats_iff.mp h
  rw [Place.eq_space hc ht, Ascii.sameLetter_comm] at hok
  exact (Ascii.sameLetter_iff (by decide)).mp hok

/-! ### Words that take no byte -/

/-- The alternatives that the matcher finds between bars. -/
def pieces (gs : List Glyph) : List (List Glyph) :=
  gs.splitOnP (·.isBare (byte '|'))

/-- The alternative cannot match where a word ends: behind its stars it asks for a byte, and not for
the space that ends the word. -/
def needsByte : List Glyph → Bool
  | [] => false
  | g :: gs => if g.isBare (byte '*') then needsByte gs else g.val != byte ' '

section

variable {n : Nat} {gs : List Glyph} {more : List UInt8} {t : Place}

theorem exists_piece
    (h : anyAlternative n (spelled gs).length (spelled gs ++ more) t = true) :
    ∃ piece ∈ pieces gs, ∃ rest,
      matchesAt n (some (spelled piece).length) (spelled piece ++ rest) t = true := by
  induction hn : gs.length using Nat.strongRecOn generalizing gs with
  | ind m ih =>
      subst hn
      obtain hb | ⟨front, g, rest, hf, hg, rfl⟩ := split_at_bare (byte '|') gs
      · rw [anyAlternative_last ((findUnescaped?_eq_none_iff (by decide)).mpr hb)] at h
        refine ⟨gs, ?_, more, h⟩
        rw [pieces, List.splitOnP_eq_singleton hb]
        exact List.mem_singleton_self gs
      · obtain rfl := eq_mark (by decide) hg
        have hd : dangles (spelled front) = false := by
          simpa [dangles] using dangles_spelled front []
        rw [pieces, List.splitOnP_append_cons_of_forall_mem hf _ hg]
        simp only [spelled_append, spelled_cons, spelling_mark, List.append_assoc,
          List.cons_append, List.nil_append, List.length_append, List.length_cons] at h
        rw [anyAlternative_bar hd ((findUnescaped?_eq_none_iff (by decide)).mpr hf),
          Bool.or_eq_true] at h
        obtain h | h := h
        · exact ⟨front, List.mem_cons_self, _, h⟩
        · have hlt : rest.length < (front ++ mark '|' (by decide) :: rest).length := by
            simp only [List.length_append, List.length_cons]
            omega
          obtain ⟨piece, hp, hm⟩ := ih _ hlt h rfl
          exact ⟨piece, List.mem_cons_of_mem front hp, hm⟩

/-- Where a word ends a row of stars and question marks takes nothing. -/
theorem skipStars_of_needsByte {r : Nat} {p : List UInt8} {u : Place} (hgs : needsByte gs = true)
    (ht : t.endsWord = true)
    (h : skipStars true (spelled gs).length (spelled gs ++ more) t = some (r, p, u)) :
    u = t ∧ ∃ hs, needsByte hs = true ∧ r = (spelled hs).length ∧ p = spelled hs ++ more := by
  induction gs with
  | nil => cases hgs
  | cons g gs ih =>
      -- Where no row starts, nothing is skipped.
      have here (hs : (spelled (g :: gs) ++ more).head? ≠ some (byte '*'))
          (ha : (spelled (g :: gs) ++ more).head? ≠ some (byte '?')) :
          u = t ∧ ∃ hs, needsByte hs = true ∧ r = (spelled hs).length ∧ p = spelled hs ++ more := by
        rw [skipStars_of_head hs ha] at h
        cases h
        exact ⟨rfl, g :: gs, hgs, rfl, rfl⟩
      obtain rfl | rfl | rfl | plain := g.eq_mark_or_isPlain
      · change skipStars true ((spelled gs).length + 1) (byte '*' :: (spelled gs ++ more)) t =
          _ at h
        rw [skipStars_star] at h
        exact ih hgs h
      · change skipStars true ((spelled gs).length + 1) (byte '?' :: (spelled gs ++ more)) t =
          _ at h
        rw [skipStars_any] at h
        obtain ht | ht := Place.endsWord_iff.mp ht
        · rw [ht] at h
          cases h
        · obtain ⟨text, ht⟩ := List.head?_eq_some_iff.mp ht
          rw [ht] at h
          cases h
      · exact here (by simp; decide) (by simp; decide)
      · have hh := head?_of_not_wild (show (Token.lit g plain).isWild = false from rfl)
          (spelled gs ++ more)
        rw [Token.spelling_lit, ← List.append_assoc, ← spelled_cons] at hh
        exact here hh.1 hh.2

theorem matchesAt_of_needsByte (hgs : needsByte gs = true) (ht : t.endsWord = true) :
    matchesAt n (some (spelled gs).length) (spelled gs ++ more) t = false := by
  rw [Bool.eq_false_iff]
  intro hm
  induction n generalizing gs with
  | zero => rw [matchesAt_zero] at hm; cases hm
  | succ n ih =>
      cases gs with
      | nil => cases hgs
      | cons g gs =>
          obtain rfl | rfl | rfl | plain := g.eq_mark_or_isPlain
          · change matchesAt (n + 1) (some ((spelled gs).length + 1))
              (byte '*' :: (spelled gs ++ more)) t = true at hm
            obtain ⟨r, p, u, hk, v, hv, hnext⟩ := (matchesAt_star_inWord _ _).mp hm
            obtain ⟨rfl, hs, hneeds, rfl, rfl⟩ := skipStars_of_needsByte hgs ht hk
            obtain rfl := Place.eq_of_mem_withinWord ht hv
            exact ih hneeds hnext
          · change matchesAt (n + 1) (some ((spelled gs).length + 1))
              (byte '?' :: (spelled gs ++ more)) t = true at hm
            rw [matchesAt_any (by simp), Place.eats_iff] at hm
            obtain ⟨c, text, hc, hok, -⟩ := hm
            rw [Place.eq_space hc ht] at hok
            cases hok
          · change matchesAt (n + 1) (some ((spelled gs).length + 1))
              (byte '[' :: (spelled gs ++ more)) t = true at hm
            obtain ⟨c, text, used, hc, hok, -⟩ := (matchesAt_bracket (by simp) _).mp hm
            rw [Place.eq_space hc ht] at hok
            cases hok
          · have hroom : some (spelled (g :: gs)).length ≠ some 0 := by
              rw [spelled_cons, List.length_append]
              have := List.length_pos_iff.mpr g.spelling_ne_nil
              simp only [ne_eq, Option.some.injEq]
              omega
            rw [spelled_cons, List.append_assoc, ← spelled_cons,
              matchesAt_glyph hroom plain fun _ => rfl] at hm
            simp only [isPlain, Bool.not_eq_true', Bool.or_eq_false_iff] at plain
            rw [needsByte, plain.1.1, if_neg Bool.false_ne_true, val_of_eats ht hm] at hgs
            cases hgs

end

/-! ### What can stand behind a word -/

/-- The pattern may take up where a word ends. -/
def resumes : List UInt8 → Bool
  | [] => false
  | b :: rest =>
    mayFollowWord b || b == byte '{' || (b == byte '\\' && rest.head? == some (byte ' '))

section

variable {n : Nat} {q : List UInt8} {u : Place}

theorem ended_of_not_resumes (hu : u.endsWord = true) (hq : resumes q = false)
    (h : matchesAt (n + 1) none q u = true) : (q = [] ∨ q = [byte '\\']) ∧ u.rest = [] := by
  obtain rfl | rfl | ⟨g, rest, rfl⟩ := exists_glyph q
  · rw [matchesAt_nil] at h
    exact ⟨.inl rfl, List.isEmpty_iff.mp h⟩
  · rw [matchesAt_dangling (show (none : Option Nat) ≠ some 0 from nofun)] at h
    exact ⟨.inr rfl, List.isEmpty_iff.mp h⟩
  · obtain rfl | rfl | rfl | plain := g.eq_mark_or_isPlain
    · cases hq
    · cases hq
    · cases hq
    have ho : g.isBare (byte '{') = false := by
      rw [Bool.eq_false_iff]
      intro ho
      obtain rfl := eq_mark (by decide) ho
      cases hq
    have hnone : (none : Option Nat) ≠ some 0 := nofun
    rw [matchesAt_glyph hnone plain fun hb => by rw [ho] at hb; cases hb] at h
    have hv := val_of_eats hu h
    -- A space can be taken, with a backslash or without.
    cases g with
    | bare b hb =>
        obtain rfl : b = byte ' ' := hv
        cases hq
    | escaped b =>
        obtain rfl : b = byte ' ' := hv
        cases hq

end

/-! ### Refusals -/

/-- The alternation behind `pre` is open behind `w`, and nothing is wrong so far. -/
structure Opened (pre w : List Token) : Prop where
  faultless : check (spelling pre ++ byte '{' :: spelling w) = some .unclosedWord
  outside : isOpenAfter false pre = false
  inside : ∀ t ∈ w, t.isBare (byte '{') = false ∧ t.isBare (byte '}') = false

/-- Refusals of patterns that may match. -/
inductive Misjudged : List UInt8 → Malformed → Prop where
  /-- A brace that closes nothing stands for itself. -/
  | unopened {pre rest c} (h : check (spelling pre) = none) :
      Misjudged (spelling pre ++ byte '}' :: c :: rest) (.afterWord c)
  /-- A brace in a class ends the alternation early. -/
  | cut {pre w} {t : Token} {rest fault} (h : Opened pre w)
      (hb : ∃ g ∈ glyphs w, g.isBare (byte '}') = true)
      (hf : t.fault true none rest.head? = some fault) :
      Misjudged (spelling pre ++ byte '{' :: (spelling w ++ (t.spelling ++ rest))) fault
  /-- What is escaped behind an alternation may be a space, or nothing. -/
  | escape {pre w rest} (h : Opened pre w) (hr : rest = [] ∨ rest.head? = some (byte ' ')) :
      Misjudged (spelling pre ++ byte '{' :: (spelling w ++ byte '}' :: byte '\\' :: rest))
        (.afterWord (byte '\\'))
  /-- Behind an empty word another word may start. -/
  | emptyWord {pre w rest} (h : Opened pre w)
      (hp : ∃ piece ∈ pieces (glyphs w), needsByte piece = false) :
      Misjudged (spelling pre ++ byte '{' :: (spelling w ++ byte '}' :: byte '{' :: rest))
        (.afterWord (byte '{'))
  /-- An alternative without the space may match. -/
  | bars {pre w word rest} (h : Opened pre w)
      (hw : ∀ g ∈ word, g.isBare (byte '}') = false)
      (hb : ∃ g ∈ glyphs w ++ word, g.isBare (byte '|') = true) :
      Misjudged (spelling pre ++ byte '{' ::
        (spelling w ++ byte ' ' :: (spelled word ++ byte '}' :: rest))) .spaceInWord
  /-- The alternative goes beyond the word, and what follows takes up where the word ends. -/
  | resumed {pre w word rest} (h : Opened pre w)
      (hw : ∀ g ∈ word, g.isBare (byte '}') = false) (hr : resumes rest = true) :
      Misjudged (spelling pre ++ byte '{' ::
        (spelling w ++ byte ' ' :: (spelled word ++ byte '}' :: rest))) .spaceInWord

/-- Before an alternation no refusal is wrong. -/
theorem not_misjudged_before {pattern : List UInt8} {c : UInt8} :
    ¬Misjudged pattern (.beforeWord c) := by
  intro h
  cases h with
  | @cut pre w t rest fault _ _ hf =>
      unfold Token.fault at hf
      split at hf
      · cases hf
      · split at hf
        · obtain ⟨_, -, ⟨⟩⟩ := Option.map_eq_some_iff.mp hf
        · split at hf <;> cases hf

section

variable {pre : List Token} {rest q : List UInt8} {c : UInt8}

theorem exists_opened (hf : rowFault false none pre none = none)
    (ho : isOpenAfter false pre = true) :
    ∃ out w, Opened out w ∧ spelling pre = spelling out ++ byte '{' :: spelling w := by
  obtain ⟨⟨⟩, -⟩ | ⟨out, t, w, rfl, ht, hout, hw⟩ := exists_opening hf ho
  have hsp : spelling (out ++ t :: w) = spelling out ++ byte '{' :: spelling w := by
    rw [spelling_append, spelling_cons, Token.spelling_of_isBare ht, List.singleton_append]
  refine ⟨out, w, ⟨?_, hout, hw⟩, hsp⟩
  rw [← hsp, check, ← List.append_nil (spelling _), firstFault_spelling, List.head?_nil, hf, ho,
    firstFault_nil]
  rfl

/-- If the refusal is no mistake, the matcher reads the word up to the brace that is meant. -/
theorem Opened.unclosed {w : List Token} {t : Token} {fault : Malformed} (h : Opened pre w)
    (hf : t.fault true none rest.head? = some fault)
    (hm : ¬Misjudged (spelling pre ++ byte '{' :: (spelling w ++ (t.spelling ++ rest))) fault) :
    ∀ g ∈ glyphs w, g.isBare (byte '}') = false := by
  intro g hmem
  rw [Bool.eq_false_iff]
  intro hb
  exact hm (.cut h ⟨g, hmem, hb⟩ hf)

/-- A glyph after which no alternation is open, and which is in its place before one, is no brace:
nothing is open before it either. -/
theorem outside_before {g : Glyph} {plain : g.isPlain = true}
    (hf : rowFault false none (pre ++ [.lit g plain]) (some (byte '{')) = none)
    (ho : isOpenAfter false (pre ++ [.lit g plain]) = false) :
    g.isBare (byte '{') = false ∧ isOpenAfter false pre = false := by
  rw [isOpenAfter_append] at ho
  have hopening : g.isBare (byte '{') = false := by
    rw [Bool.eq_false_iff]
    intro hg
    obtain rfl := eq_mark (by decide) hg
    cases ho
  have hclosing : g.isBare (byte '}') = false := by
    rw [Bool.eq_false_iff]
    intro hg
    obtain rfl := eq_mark (by decide) hg
    rw [rowFault_append, Option.or_eq_none_iff] at hf
    cases hf.2
  have hkeeps := Token.opens_of_neither (t := .lit g plain) hopening hclosing
  rw [isOpenAfter_cons, hkeeps] at ho
  exact ⟨hopening, ho⟩

/-- Before an alternation the matcher can only take a space. -/
theorem val_before {g : Glyph} (plain : g.isPlain = true) (hopening : g.isBare (byte '{') = false)
    (h : Reached (g.spelling ++ byte '{' :: rest)) : g.val = byte ' ' := by
  obtain ⟨n, t, h⟩ := h
  obtain ⟨n, rfl⟩ := exists_budget h
  have hnone : (none : Option Nat) ≠ some 0 := nofun
  have hbrace : g.isBare (byte '{') = true → (none : Option Nat).isSome = true := by
    rw [hopening]
    nofun
  rw [matchesAt_glyph hnone plain hbrace, Place.eats_iff] at h
  obtain ⟨b, text, -, hb, hnext⟩ := h
  obtain rfl : b = byte ' ' := eq_of_beq (startsWord_of_matchesAt hnext)
  rwa [Ascii.sameLetter_comm, Ascii.sameLetter_iff (by decide)] at hb

theorem never_before (hf : rowFault false none pre (some (byte '{')) = none)
    (ho : isOpenAfter false pre = false) (hb : lastByte none pre = some c)
    (hc : mayPrecedeWord c = false) : ¬Reached (spelling pre ++ byte '{' :: rest) := by
  intro h
  obtain rfl | ⟨pre, tok, rfl⟩ := List.eq_nil_or_concat' pre
  · cases hb
  have hlast : tok.last = c := by simpa [lastByte] using hb
  subst hlast
  cases tok with
  | star | any | ofClass => cases hc
  | lit g plain =>
      obtain ⟨hopening, hpre⟩ := outside_before hf ho
      have hhead := head?_of_not_wild (show (Token.lit g plain).isWild = false from rfl)
        (byte '{' :: rest)
      rw [spelling_append, spelling_cons, spelling_nil, List.append_nil, List.append_assoc] at h
      have hreached := reached_of_glyphs hhead.1 hhead.2 hpre h
      rw [Token.spelling_lit] at hreached
      rw [Token.last, val_before plain hopening hreached] at hc
      cases hc

theorem never_after (hf : rowFault false none pre none = none) (hc : mayFollowWord c = false)
    (hm : ¬Misjudged (spelling pre ++ byte '}' :: c :: rest) (.afterWord c)) :
    ¬Reached (spelling pre ++ byte '}' :: c :: rest) := by
  intro h
  cases ho : isOpenAfter false pre with
  | false => exact hm (.unopened ((check_spelling pre).mpr ⟨hf, ho⟩))
  | true =>
      obtain ⟨out, w, hw, hsp⟩ := exists_opened hf ho
      rw [hsp, List.append_assoc, List.cons_append] at h hm
      have hfault : (Token.lit (mark '}' (by decide)) (by decide)).fault true none
          (c :: rest).head? = some (.afterWord c) := by
        rw [Token.fault_of_closing rfl, List.head?_cons, Option.filter_some, hc]
        rfl
      have hg := hw.unclosed hfault hm
      obtain ⟨n, t, hany, hq⟩ := exists_alternative hg (reached_word hw.outside h)
      by_cases hr : resumes (c :: rest) = true
      · rw [resumes, hc, Bool.false_or, Bool.or_eq_true, Bool.and_eq_true, beq_iff_eq, beq_iff_eq,
          beq_iff_eq] at hr
        obtain rfl | ⟨rfl, hd⟩ := hr
        · obtain ⟨piece, hp, _, hpm⟩ := exists_piece hany
          have ht := Place.endsWord_of_startsWord (startsWord_of_matchesAt hq)
          refine hm (.emptyWord hw ⟨piece, hp, ?_⟩)
          rw [Bool.eq_false_iff]
          intro hneeds
          rw [matchesAt_of_needsByte hneeds ht] at hpm
          cases hpm
        · exact hm (.escape hw (.inr hd))
      · rw [Bool.not_eq_true] at hr
        have hend := (Place.wordEnd_spec t.before t.rest).1
        obtain ⟨hnil | hlast, -⟩ := ended_of_not_resumes hend hr hq
        · cases hnil
        · obtain ⟨rfl, rfl⟩ := List.cons.inj hlast
          exact hm (.escape hw (.inl rfl))

/-- If no bar stands in the word and nothing takes up where it ends, the word cannot reach the
space in it. -/
theorem never_space_closed {w : List Token} {word : List Glyph} (hw : Opened pre w)
    (hg : ∀ g ∈ glyphs w, g.isBare (byte '}') = false)
    (hword : ∀ g ∈ word, g.isBare (byte '}') = false)
    (hm : ¬Misjudged (spelling pre ++ byte '{' ::
      (spelling w ++ byte ' ' :: (spelled word ++ byte '}' :: rest))) .spaceInWord) :
    ¬Reached (byte '{' :: (spelling w ++ byte ' ' :: (spelled word ++ byte '}' :: rest))) := by
  intro h
  let gs := glyphs w ++ mark ' ' (by decide) :: word
  have hgs : ∀ g ∈ gs, g.isBare (byte '}') = false :=
    List.forall_mem_append.mpr ⟨hg, List.forall_mem_cons.mpr ⟨rfl, hword⟩⟩
  have hspelled : spelled gs = spelling w ++ byte ' ' :: spelled word := by
    simp [gs, spelling]
  have hall : spelling w ++ byte ' ' :: (spelled word ++ byte '}' :: rest) =
      spelled gs ++ byte '}' :: rest := by
    rw [hspelled, List.append_assoc, List.cons_append]
  have hbars : findUnescaped? (byte '|') (spelled gs) = none := by
    refine (findUnescaped?_eq_none_iff (by decide)).mpr fun g hmem => ?_
    rw [Bool.eq_false_iff]
    intro hb
    obtain hmem | hmem := List.mem_append.mp hmem
    · exact hm (.bars hw hword ⟨g, List.mem_append_left word hmem, hb⟩)
    obtain rfl | hmem := List.mem_cons.mp hmem
    · cases hb
    · exact hm (.bars hw hword ⟨g, List.mem_append_right _ hmem, hb⟩)
  rw [hall] at h
  obtain ⟨n, t, hany, hq⟩ := exists_alternative hgs h
  rw [anyAlternative_last hbars, ← hall, hspelled, List.length_append, List.length_cons] at hany
  have hspace : byte ' ' ∈ t.rest := (needsSpace_of_tokens w _).matched n t hany
  obtain ⟨hend, part, hpart, hrest, -⟩ := Place.wordEnd_spec t.before t.rest
  cases hr : resumes rest with
  | true => exact hm (.resumed hw hword hr)
  | false =>
      rw [hrest, (ended_of_not_resumes hend hr hq).2, List.append_nil] at hspace
      exact hpart hspace

theorem never_space (hf : rowFault false none pre none = none)
    (ho : isOpenAfter false pre = true)
    (hm : ¬Misjudged (spelling pre ++ byte ' ' :: rest) .spaceInWord) :
    ¬Reached (spelling pre ++ byte ' ' :: rest) := by
  intro h
  obtain ⟨out, w, hw, hsp⟩ := exists_opened hf ho
  rw [hsp, List.append_assoc, List.cons_append] at h hm
  have hg : ∀ g ∈ glyphs w, g.isBare (byte '}') = false :=
    hw.unclosed (t := .lit (mark ' ' (by decide)) (by decide)) rfl hm
  replace h := reached_word hw.outside h
  cases hfind : findUnescaped? (byte '}') rest with
  | none =>
      have hspace := findUnescaped?_spelling (by decide : byte '}' ≠ byte '\\')
        (mark ' ' (by decide)) rest
      rw [hfind] at hspace
      refine never_unclosed ?_ h
      rw [spelling, findUnescaped?_spelled (by decide) hg]
      exact congrArg (Option.map _) hspace
  | some k =>
      obtain ⟨word, more, hword, rfl⟩ := exists_of_findUnescaped? (by decide) hfind
      exact never_space_closed hw hg hword hm h

end

/-- **What the validator says can never match does not match**, unless the refusal is one of
`Misjudged`. -/
theorem rejected_never_matches {pattern : List UInt8} {fault : Malformed}
    (h : check pattern = some fault) (hn : fault.saysNever = true)
    (hm : ¬Misjudged pattern fault) (text : List UInt8) : isMatch pattern text = false := by
  rw [Bool.eq_false_iff]
  intro hmatch
  have hreached : Reached pattern := ⟨budget, _, hmatch⟩
  cases refused_of_check h hn with
  | before hf ho hb hc => exact never_before hf ho hb hc hreached
  | after hf hc => exact never_after hf hc hm hreached
  | space hf ho => exact never_space hf ho hm hreached

/-- The `b` behind the brace of `{a}b` is refused with reason. -/
theorem not_misjudged_letter :
    ¬Misjudged (['{', 'a', '}', 'b'].map byte) (.afterWord (byte 'b')) := by
  generalize hp : ['{', 'a', '}', 'b'].map byte = pattern
  generalize hc : byte 'b' = c
  intro h
  cases h with
  | @unopened pre rest c h =>
      -- Up to the brace stands `{a`, which opens an alternation.
      generalize spelling pre = front at hp h
      match front with
      | [] => exact absurd (List.cons.inj hp).1 (by decide)
      | [_] => exact absurd (List.cons.inj (List.cons.inj hp).2).1 (by decide)
      | [_, _] =>
          obtain ⟨rfl, rfl, -⟩ : _ ∧ _ ∧ _ := by simpa using hp
          revert h
          decide +kernel
      | _ :: _ :: _ :: more =>
          have hlen := congrArg List.length hp
          simp only [List.length_map, List.length_cons, List.length_nil, List.length_append] at hlen
          omega
  | @cut pre w t rest fault h hb hf =>
      generalize spelling pre = front at hp
      cases front with
      | cons _ more =>
          have hmem : byte '{' ∈ ['a', '}', 'b'].map byte := by
            have htail := (List.cons.inj hp).2
            change ['a', '}', 'b'].map byte = _ at htail
            rw [htail]
            exact List.mem_append_right more List.mem_cons_self
          exact absurd hmem (by decide)
      | nil =>
          -- The word is `a` or empty, and neither has a class.
          have hword := (List.cons.inj hp).2
          let a : Token := .lit (mark 'a' (by decide)) (by decide)
          let close : Token := .lit (mark '}' (by decide)) (by decide)
          obtain ⟨g, hg, hbrace⟩ := hb
          match w, h.inside with
          | [], _ => cases hg
          | u :: us, hin =>
              rw [spelling_cons, List.append_assoc] at hword
              obtain ⟨rfl, hrest⟩ := token_of_append (t := a) hword
              match us, hin with
              | [], _ =>
                  obtain rfl := List.mem_singleton.mp hg
                  cases hbrace
              | v :: vs, hin =>
                  rw [spelling_cons, List.append_assoc] at hrest
                  obtain ⟨rfl, -⟩ := token_of_append (t := close) hrest
                  cases (hin close (by simp)).2
  | escape => exact absurd hc (by decide)
  | emptyWord => exact absurd hc (by decide)

theorem rejected_never_matches_letter :
    let pattern := ['{', 'a', '}', 'b'].map byte
    (check pattern = some (.afterWord (byte 'b')) ∧
      (Malformed.afterWord (byte 'b')).saysNever = true ∧
      ¬Misjudged pattern (.afterWord (byte 'b'))) ∧
        isMatch pattern (['a', 'b'].map byte) = false := by
  intro pattern
  have h : check pattern = some (.afterWord (byte 'b')) := by decide +kernel
  exact ⟨⟨h, rfl, not_misjudged_letter⟩, rejected_never_matches h rfl not_misjudged_letter _⟩

/-- A refused pattern for each way to be wrong, and a text that it matches. -/
theorem refused_but_matching :
    (check (['}', 'x'].map byte) = some (.afterWord (byte 'x')) ∧
      isMatch (['}', 'x'].map byte) (['}', 'x'].map byte) = true) ∧
    (check (['{', '[', '}', '*', ']', '}', 'x'].map byte) = some (.afterWord (byte 'x')) ∧
      isMatch (['{', '[', '}', '*', ']', '}', 'x'].map byte)
        (['}', ' ', ']', '}', 'x'].map byte) = true) ∧
    (check (['{', 'a', '}', '\\', ' ', 'b'].map byte) = some (.afterWord (byte '\\')) ∧
      isMatch (['{', 'a', '}', '\\', ' ', 'b'].map byte) (['a', ' ', 'b'].map byte) = true) ∧
    (check (['{', '}', '{', '}'].map byte) = some (.afterWord (byte '{')) ∧
      isMatch (['{', '}', '{', '}'].map byte) [] = true) ∧
    (check (['{', 'a', '|', 'b', ' ', 'c', '}'].map byte) = some .spaceInWord ∧
      isMatch (['{', 'a', '|', 'b', ' ', 'c', '}'].map byte) (['a'].map byte) = true) ∧
    (check (['{', 'a', ' ', 'b', '}', '*'].map byte) = some .spaceInWord ∧
      isMatch (['{', 'a', ' ', 'b', '}', '*'].map byte) (['a', ' ', 'b'].map byte) = true) := by
  decide +kernel

end ExprEngine.Glob
