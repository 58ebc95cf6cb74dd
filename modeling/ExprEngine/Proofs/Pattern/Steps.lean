import ExprEngine.Proofs.Pattern.Tokens

/-!
# Steps of the glob matcher

What the matcher does with one token, said once for each kind of step, so that nothing behind this
module looks into its definition.

* `matchesAt_token`: a token other than a star takes one byte.
* `matchesAt_star`, `matchesAt_star_inWord`: stars and question marks are passed together, and what
  follows is tried at each later place.
* `matchesAt_alternation`: an alternation takes a word.
* `anyAlternative_last`, `anyAlternative_bar`: its alternatives are tried one after the other.
-/

namespace ExprEngine.Glob

open Glyph

/-! ### Places -/

namespace Place

/-- A byte that `ok` admits stands here, and `next` holds behind it. -/
def eats (t : Place) (ok : UInt8 → Bool) (next : Place → Bool) : Bool :=
  match t.rest with
  | [] => false
  | c :: text => ok c && next ⟨some c, text⟩

theorem eats_iff {t : Place} {ok : UInt8 → Bool} {next : Place → Bool} :
    t.eats ok next = true ↔
      ∃ c text, t.rest = c :: text ∧ ok c = true ∧ next ⟨some c, text⟩ = true := by
  unfold eats
  cases t.rest with
  | nil => simp
  | cons c text => simp [and_assoc]

theorem endsWord_iff {t : Place} :
    t.endsWord = true ↔ t.rest = [] ∨ t.rest.head? = some (byte ' ') := by
  unfold endsWord
  cases t.rest <;> simp

variable {before : Option UInt8} {rest : List UInt8} {v : Place}

theorem exists_of_mem_onward (h : v ∈ onward before rest) : ∃ part, rest = part ++ v.rest := by
  induction rest generalizing before with
  | nil =>
      obtain rfl := List.mem_singleton.mp h
      exact ⟨[], rfl⟩
  | cons b rest ih =>
      rw [onward, List.mem_cons] at h
      obtain rfl | h := h
      · exact ⟨[], rfl⟩
      · obtain ⟨part, hp⟩ := ih h
        exact ⟨b :: part, congrArg (b :: ·) hp⟩

theorem exists_mem_onward (before : Option UInt8) (part left : List UInt8) :
    ∃ v ∈ onward before (part ++ left), v.rest = left := by
  induction part generalizing before with
  | nil =>
      cases left with
      | nil => exact ⟨_, List.mem_singleton_self _, rfl⟩
      | cons b left => exact ⟨_, List.mem_cons_self, rfl⟩
  | cons b part ih =>
      obtain ⟨v, hv, hl⟩ := ih (some b)
      exact ⟨v, List.mem_cons_of_mem _ hv, hl⟩

theorem exists_of_mem_withinWord (h : v ∈ withinWord before rest) :
    ∃ part, byte ' ' ∉ part ∧ rest = part ++ v.rest := by
  induction rest generalizing before with
  | nil =>
      obtain rfl := List.mem_singleton.mp h
      exact ⟨[], List.not_mem_nil, rfl⟩
  | cons b rest ih =>
      rw [withinWord] at h
      split at h
      · obtain rfl := List.mem_singleton.mp h
        exact ⟨[], List.not_mem_nil, rfl⟩
      · next hb =>
        rw [List.mem_cons] at h
        obtain rfl | h := h
        · exact ⟨[], List.not_mem_nil, rfl⟩
        · obtain ⟨part, hs, hp⟩ := ih h
          refine ⟨b :: part, ?_, congrArg (b :: ·) hp⟩
          rw [List.mem_cons, not_or]
          exact ⟨Ne.symm hb, hs⟩

theorem exists_mem_withinWord (before : Option UInt8) {part : List UInt8} (h : byte ' ' ∉ part)
    (left : List UInt8) : ∃ v ∈ withinWord before (part ++ left), v.rest = left := by
  induction part generalizing before with
  | nil =>
      cases left with
      | nil => exact ⟨_, List.mem_singleton_self _, rfl⟩
      | cons b left =>
          rw [List.nil_append, withinWord]
          split
          · exact ⟨_, List.mem_singleton_self _, rfl⟩
          · exact ⟨_, List.mem_cons_self, rfl⟩
  | cons b part ih =>
      rw [List.mem_cons, not_or] at h
      obtain ⟨v, hv, hl⟩ := ih (some b) h.2
      rw [List.cons_append, withinWord, if_neg (Ne.symm h.1)]
      exact ⟨v, List.mem_cons_of_mem _ hv, hl⟩

/-- A word ends at the first space, or at the end of the text. -/
theorem wordEnd_spec (before : Option UInt8) (rest : List UInt8) :
    (wordEnd before rest).endsWord = true ∧
      ∃ part, byte ' ' ∉ part ∧ rest = part ++ (wordEnd before rest).rest ∧
        (wordEnd before rest).before = (part.getLast?).or before := by
  induction rest generalizing before with
  | nil => exact ⟨rfl, [], List.not_mem_nil, rfl, rfl⟩
  | cons b rest ih =>
      rw [wordEnd]
      split
      · next hb => exact ⟨by simp [endsWord, hb], [], List.not_mem_nil, rfl, rfl⟩
      · next hb =>
        obtain ⟨he, part, hs, hp, hl⟩ := ih (some b)
        refine ⟨he, b :: part, ?_, congrArg (b :: ·) hp, ?_⟩
        · rw [List.mem_cons, not_or]
          exact ⟨Ne.symm hb, hs⟩
        · rw [hl]
          cases part <;> simp [List.getLast?_cons]

/-- A word starts where one ends only if it is empty. -/
theorem endsWord_of_startsWord {t : Place} (h : (wordEnd t.before t.rest).startsWord = true) :
    t.endsWord = true := by
  obtain ⟨he, part, hs, hp, hb⟩ := wordEnd_spec t.before t.rest
  cases hl : part.getLast? with
  | none =>
      rw [List.getLast?_eq_none_iff.mp hl, List.nil_append] at hp
      rw [endsWord_iff, hp, ← endsWord_iff]
      exact he
  | some b =>
      rw [hl, Option.some_or] at hb
      rw [startsWord, hb] at h
      obtain rfl : b = byte ' ' := eq_of_beq h
      exact absurd (List.mem_of_getLast? hl) hs

theorem eq_of_mem_withinWord {t : Place} (ht : t.endsWord = true)
    (h : v ∈ withinWord t.before t.rest) : v = t := by
  obtain ⟨before, rest⟩ := t
  cases rest with
  | nil => exact List.mem_singleton.mp h
  | cons b rest =>
      obtain rfl : b = byte ' ' := eq_of_beq ht
      rw [withinWord, if_pos rfl] at h
      exact List.mem_singleton.mp h

end Place

/-! ### Steps -/

section

variable {n : Nat} {word : Option Nat} {t : Place}

theorem matchesAt_zero (pat : List UInt8) : matchesAt 0 word pat t = false := by
  rw [matchesAt.eq_1]

/-- What matches has some of the budget left. -/
theorem exists_budget {pat : List UInt8} (h : matchesAt n word pat t = true) :
    ∃ m, n = m + 1 := by
  cases n with
  | zero => rw [matchesAt_zero] at h; cases h
  | succ m => exact ⟨m, rfl⟩

theorem matchesAt_nil :
    matchesAt (n + 1) word [] t = if word.isSome then t.endsWord else t.rest.isEmpty := by
  rw [matchesAt.eq_2]

theorem matchesAt_ended (pat : List UInt8) : matchesAt (n + 1) (some 0) pat t = t.endsWord := by
  cases pat with
  | nil => exact matchesAt_nil
  | cons b rest => rw [matchesAt.eq_def]; rfl

theorem matchesAt_any (hw : word ≠ some 0) (pat : List UInt8) :
    matchesAt (n + 1) word (byte '?' :: pat) t =
      t.eats (fun c => !(word.isSome && c == byte ' '))
        (matchesAt (n + 1) (word.map (· - 1)) pat) := by
  rw [matchesAt.eq_def]
  dsimp only
  rw [if_neg hw, if_neg (by decide), if_pos rfl]
  rfl

theorem matchesAt_escaped (hw : word ≠ some 0) (b : UInt8) (pat : List UInt8) :
    matchesAt (n + 1) word (byte '\\' :: b :: pat) t =
      t.eats (Ascii.sameLetter · b) (matchesAt (n + 1) (word.map (· - 2)) pat) := by
  rw [matchesAt.eq_def]
  dsimp only
  rw [if_neg hw, if_pos rfl]
  unfold Place.eats
  cases t.rest <;> rfl

theorem matchesAt_glyph (hw : word ≠ some 0) {g : Glyph} (plain : g.isPlain = true)
    (ho : g.isBare (byte '{') = true → word.isSome = true) (pat : List UInt8) :
    matchesAt (n + 1) word (g.spelling ++ pat) t =
      t.eats (Ascii.sameLetter · g.val)
        (matchesAt (n + 1) (word.map (· - g.spelling.length)) pat) := by
  cases g with
  | escaped b => exact matchesAt_escaped hw b pat
  | bare b hb =>
      simp only [isPlain, isBare, Bool.not_eq_true', Bool.or_eq_false_iff,
        beq_eq_false_iff_ne] at plain
      obtain ⟨⟨hs, ha⟩, hc⟩ := plain
      have ho : ¬(b = byte '{' ∧ word.isNone = true) := by
        rintro ⟨rfl, hn⟩
        rw [Option.isNone_iff_eq_none.mp hn] at ho
        exact Bool.false_ne_true (ho (beq_self_eq_true _))
      change matchesAt (n + 1) word (b :: pat) t = _
      rw [matchesAt.eq_def]
      dsimp only
      rw [if_neg hw, if_neg hb, if_neg ha, if_neg hs, if_neg hc, if_neg ho]
      rfl

/-- A class takes the byte that stands here, and the matcher goes on behind it. -/
theorem matchesAt_bracket (hw : word ≠ some 0) (pat : List UInt8) :
    matchesAt (n + 1) word (byte '[' :: pat) t = true ↔
      ∃ c text used, t.rest = c :: text ∧ (word.isSome && c == byte ' ') = false ∧
        classUsed? c pat = some used ∧
          matchesAt (n + 1) (word.map (· - (used + 1))) (pat.drop used) ⟨some c, text⟩ = true := by
  rw [matchesAt.eq_def]
  dsimp only
  rw [if_neg hw, if_neg (by decide), if_neg (by decide), if_neg (by decide), if_pos rfl]
  cases t.rest with
  | nil => simp
  | cons c text =>
      dsimp only
      constructor
      · intro h
        split at h
        · cases h
        · next hs =>
          split at h
          · cases h
          · next used hu => exact ⟨c, text, used, rfl, Bool.not_eq_true _ ▸ hs, hu, h⟩
      · rintro ⟨_, _, used, ⟨⟩, hs, hu, hm⟩
        rw [hs, if_neg Bool.false_ne_true, hu]
        exact hm

theorem matchesAt_class (hw : word ≠ some 0) {body : List Glyph}
    (closed : ∀ g ∈ body, g.isBare (byte ']') = false) (pat : List UInt8) :
    matchesAt (n + 1) word (byte '[' :: (spelled body ++ byte ']' :: pat)) t =
      t.eats (fun c => !(word.isSome && c == byte ' ') && inClass body c)
        (matchesAt (n + 1) (word.map (· - ((spelled body).length + 2))) pat) := by
  have hd : (spelled body ++ byte ']' :: pat).drop ((spelled body).length + 1) = pat := by simp
  rw [Bool.eq_iff_iff, matchesAt_bracket hw, Place.eats_iff]
  simp only [classUsed?_spelled _ closed, Bool.and_eq_true, Bool.not_eq_true']
  constructor
  · rintro ⟨c, text, used, ht, hc, hu, hm⟩
    obtain ⟨hin, hused⟩ := Option.ite_none_right_eq_some.mp hu
    cases hused
    rw [hd] at hm
    exact ⟨c, text, ht, ⟨hc, hin⟩, hm⟩
  · rintro ⟨c, text, ht, ⟨hc, hin⟩, hm⟩
    exact ⟨c, text, _, ht, hc, if_pos hin, by rwa [hd]⟩

theorem matchesAt_token (hw : word ≠ some 0) {tok : Token} (hs : tok ≠ .star)
    (ho : tok.isBare (byte '{') = true → word.isSome = true) (pat : List UInt8) :
    matchesAt (n + 1) word (tok.spelling ++ pat) t =
      t.eats (tok.takesByte word.isSome)
        (matchesAt (n + 1) (word.map (· - tok.spelling.length)) pat) := by
  cases tok with
  | star => exact absurd rfl hs
  | any => exact matchesAt_any hw pat
  | ofClass body closed =>
      rw [Token.spelling_ofClass, List.cons_append, List.append_assoc, List.singleton_append,
        matchesAt_class hw closed]
      simp only [List.length_cons, List.length_append, List.length_nil, Nat.zero_add]
      rfl
  | lit g plain =>
      rw [Token.spelling_lit, matchesAt_glyph hw plain ho]
      rfl

/-- The backslash that is left over at the end matches nothing more. -/
theorem matchesAt_dangling (hw : word ≠ some 0) :
    matchesAt (n + 1) word [byte '\\'] t = t.rest.isEmpty := by
  rw [matchesAt.eq_def]
  dsimp only
  rw [if_neg hw, if_pos rfl]

/-- What follows a row of stars and question marks is tried at every later place. -/
theorem matchesAt_star (pat : List UInt8) :
    matchesAt (n + 1) none (byte '*' :: pat) t = true ↔
      ∃ r p u, skipStars false pat.length pat t = some (r, p, u) ∧
        (p = [] ∨ ∃ v ∈ Place.onward u.before u.rest,
          mayStart p v = true ∧ matchesAt n none p v = true) := by
  rw [matchesAt.eq_def]
  dsimp only
  rw [if_neg nofun, if_neg (by decide), if_neg (by decide), if_pos rfl]
  split
  · next h => simp [show skipStars false pat.length pat t = none from h]
  · next r p u h => simp [show skipStars false pat.length pat t = some (r, p, u) from h]

/-- Inside an alternation it is tried at the places of the word. -/
theorem matchesAt_star_inWord (k : Nat) (pat : List UInt8) :
    matchesAt (n + 1) (some (k + 1)) (byte '*' :: pat) t = true ↔
      ∃ r p u, skipStars true k pat t = some (r, p, u) ∧
        ∃ v ∈ Place.withinWord u.before u.rest, matchesAt n (some r) p v = true := by
  rw [matchesAt.eq_def]
  dsimp only
  rw [if_neg (by simp), if_neg (by decide), if_neg (by decide), if_pos rfl]
  split
  · next h => simp [show skipStars true k pat t = none from h]
  · next r p u h => simp [show skipStars true k pat t = some (r, p, u) from h]

theorem findUnescaped?_opening (pat : List UInt8) :
    findUnescaped? (byte '}') (byte '{' :: pat) = (findUnescaped? (byte '}') pat).map (· + 1) :=
  findUnescaped?_spelling (by decide) (mark '{' (by decide)) pat

theorem matchesAt_alternation {pat : List UInt8} {close : Nat}
    (h : findUnescaped? (byte '}') pat = some close) :
    matchesAt (n + 1) none (byte '{' :: pat) t = true ↔
      t.startsWord = true ∧ anyAlternative n close pat t = true ∧
        matchesAt (n + 1) none (pat.drop (close + 1)) (Place.wordEnd t.before t.rest) = true := by
  rw [matchesAt.eq_def]
  dsimp only
  rw [if_neg nofun, if_neg (by decide), if_neg (by decide), if_neg (by decide), if_neg (by decide),
    if_pos ⟨rfl, rfl⟩, findUnescaped?_opening, h]
  simp

theorem matchesAt_unclosed {pat : List UInt8} (h : findUnescaped? (byte '}') pat = none) :
    matchesAt (n + 1) none (byte '{' :: pat) t = false := by
  rw [matchesAt.eq_def]
  dsimp only
  rw [if_neg nofun, if_neg (by decide), if_neg (by decide), if_neg (by decide), if_neg (by decide),
    if_pos ⟨rfl, rfl⟩, findUnescaped?_opening, h]
  simp

theorem anyAlternative_none {room : Nat} {pat : List UInt8}
    (h : findUnescaped? (byte '|') (pat.take room) = none) :
    anyAlternative n room pat t = matchesAt n (some room) pat t := by
  rw [anyAlternative.eq_def]
  split
  · rfl
  · next hb => cases h.symm.trans hb

theorem anyAlternative_some {room bar : Nat} {pat : List UInt8}
    (h : findUnescaped? (byte '|') (pat.take room) = some bar) :
    anyAlternative n room pat t =
      (matchesAt n (some bar) pat t ||
        anyAlternative n (room - (bar + 1)) (pat.drop (bar + 1)) t) := by
  rw [anyAlternative.eq_def]
  split
  · next hb => cases h.symm.trans hb
  · next hb =>
    cases h.symm.trans hb
    rfl

/-- The last alternative is the only one left. -/
theorem anyAlternative_last {alt : List UInt8} (h : findUnescaped? (byte '|') alt = none)
    (more : List UInt8) :
    anyAlternative n alt.length (alt ++ more) t =
      matchesAt n (some alt.length) (alt ++ more) t :=
  anyAlternative_none (by rwa [List.take_left])

/-- The first alternative matches, or one of those behind the bar. -/
theorem anyAlternative_bar {alt : List UInt8} (hd : dangles alt = false)
    (h : findUnescaped? (byte '|') alt = none) (k : Nat) (more : List UInt8) :
    anyAlternative n (alt.length + (k + 1)) (alt ++ byte '|' :: more) t =
      (matchesAt n (some alt.length) (alt ++ byte '|' :: more) t || anyAlternative n k more t) := by
  have hf : findUnescaped? (byte '|') ((alt ++ byte '|' :: more).take (alt.length + (k + 1))) =
      some alt.length := by
    rw [List.take_length_add_append, List.take_succ_cons, findUnescaped?_append (by decide) hd h,
      findUnescaped?_self (by decide), Option.map_some, Nat.zero_add]
  rw [anyAlternative_some hf, List.drop_length_add_append, List.drop_succ_cons, List.drop_zero,
    show alt.length + (k + 1) - (alt.length + 1) = k by omega]

theorem startsWord_of_matchesAt {pat : List UInt8}
    (h : matchesAt (n + 1) none (byte '{' :: pat) t = true) : t.startsWord = true := by
  cases hc : findUnescaped? (byte '}') pat with
  | none => rw [matchesAt_unclosed hc] at h; cases h
  | some close => exact ((matchesAt_alternation hc).mp h).1

end

/-! ### Rows of stars and question marks -/

section

variable {inWord : Bool} {room r : Nat} {pat p : List UInt8} {t u : Place}

theorem skipStars_star :
    skipStars inWord (room + 1) (byte '*' :: pat) t = skipStars inWord room pat t := by
  rw [skipStars, if_pos rfl]

theorem skipStars_any :
    skipStars inWord (room + 1) (byte '?' :: pat) t =
      match t.rest with
      | [] => none
      | c :: more =>
        if inWord && c == byte ' ' then none else skipStars inWord room pat ⟨some c, more⟩ := by
  rw [skipStars]
  exact (if_neg (by decide)).trans (if_pos rfl)

theorem skipStars_of_head (hs : pat.head? ≠ some (byte '*')) (ha : pat.head? ≠ some (byte '?')) :
    skipStars inWord room pat t = some (room, pat, t) := by
  unfold skipStars
  split
  · rw [if_neg fun he => hs (congrArg some he), if_neg fun he => ha (congrArg some he)]
  · rfl

theorem skipStars_zero : skipStars inWord 0 pat t = some (0, pat, t) := by
  unfold skipStars
  rfl

end

end ExprEngine.Glob
