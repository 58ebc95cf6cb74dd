import ExprEngine.Pattern.Basic
import ExprEngine.Proofs.Pattern.Faults
import ExprEngine.Proofs.Pattern.Steps
import ExprEngine.Proofs.Text.Bytes

/-!
# Globs and the case of letters

The matcher and the validator do the same when all letters of the pattern and of the text are folded
to lower case.  So they do the same for patterns and texts that differ in nothing else.

* `folds`: the matcher, on folded patterns and texts.
* `firstFault_lower`: the validator, on folded patterns.
* `matches_of_sameWord`: globs do not tell letters by their case.
-/

namespace ExprEngine.Glob

open Glyph
open Ascii (lower lower_eq_iff lower_eq_self lower_lower)

/-! ### Scanning -/

theorem lower_beq {b c : UInt8} (h : Ascii.isLetter c = false) : (lower b == c) = (b == c) := by
  rw [Bool.eq_iff_iff, beq_iff_eq, beq_iff_eq, lower_eq_iff h]

theorem findUnescaped?_lower {needle : UInt8} (h : Ascii.isLetter needle = false)
    (cs : List UInt8) : findUnescaped? needle (cs.map lower) = findUnescaped? needle cs := by
  match cs with
  | [] => rfl
  | [b] =>
      simp (disch := first | assumption | decide) only [List.map_cons, List.map_nil, findUnescaped?,
        ne_eq, lower_eq_iff]
  | b :: c :: rest =>
      simp (disch := first | assumption | decide) only [List.map_cons, findUnescaped?, lower_eq_iff]
      rw [findUnescaped?_lower h rest, ← List.map_cons, findUnescaped?_lower h (c :: rest)]

theorem classByte_lower (cs : List UInt8) :
    classByte (cs.map lower) = (classByte cs).map fun (b, rest) => (lower b, rest.map lower) := by
  match cs with
  | [] => rfl
  | [b] =>
      simp (disch := decide) only [List.map_cons, List.map_nil, classByte, lower_eq_iff]
      split <;> rfl
  | b :: c :: rest =>
      simp (disch := decide) only [List.map_cons, classByte, lower_eq_iff]
      split <;> rfl

theorem rangeEnd_lower (cs : List UInt8) :
    rangeEnd (cs.map lower) =
      (rangeEnd cs).map fun (hi, rest) => (hi.map lower, rest.map lower) := by
  match cs with
  | [] => rfl
  | [b] => rfl
  | d :: e :: rest =>
      simp (disch := decide) only [List.map_cons, rangeEnd, ne_eq, lower_eq_iff]
      split
      · rw [← List.map_cons, classByte_lower, Option.map_map, Option.map_map]
        rfl
      · rfl

theorem inItem_lower (b lo : UInt8) (hi : Option UInt8) :
    inItem (lower b) (lower lo) (hi.map lower) = inItem b lo hi := by
  cases hi <;> simp [inItem, lower_lower]

theorem classItems_lower (b : UInt8) (cs : List UInt8) :
    classItems (lower b) (cs.map lower) =
      (classItems b cs).map fun (hit, rest) => (hit, rest.map lower) := by
  fun_induction classItems b cs with
  | case1 => rw [List.map_nil, classItems]; rfl
  | case2 rest =>
      have hclose : lower (byte ']') = byte ']' := by decide
      rw [List.map_cons, hclose, classItems_end]
      rfl
  | case3 c rest hc hb =>
      rw [List.map_cons, classItems_cons (by rwa [Ne, lower_eq_iff (by decide)]), ← List.map_cons,
        classByte_lower, hb]
      rfl
  | case4 c rest hc lo more hb hr =>
      rw [List.map_cons, classItems_cons (by rwa [Ne, lower_eq_iff (by decide)]), ← List.map_cons,
        classByte_lower, hb, Option.map_some, Option.bind_some]
      dsimp only
      rw [rangeEnd_lower, hr]
      rfl
  | case5 c rest hc lo more hb hi more' hr ih =>
      rw [List.map_cons, classItems_cons (by rwa [Ne, lower_eq_iff (by decide)]), ← List.map_cons,
        classByte_lower, hb, Option.map_some, Option.bind_some]
      dsimp only
      rw [rangeEnd_lower, hr, Option.map_some, Option.bind_some]
      dsimp only
      rw [ih, Option.map_map, Option.map_map]
      simp only [Function.comp_def, inItem_lower]

theorem classRest?_lower (b : UInt8) (cs : List UInt8) :
    classRest? (lower b) (cs.map lower) = (classRest? b cs).map (·.map lower) := by
  cases cs with
  | nil => simp [classRest?, classItems]
  | cons c rest =>
      simp (disch := decide) only [classRest?, List.map_cons, lower_eq_iff]
      by_cases hc : c = byte '^'
      · rw [if_pos hc, if_pos hc]
        dsimp only
        rw [classItems_lower]
        cases classItems b rest with
        | none => rfl
        | some found => simp
      · rw [if_neg hc, if_neg hc]
        dsimp only
        rw [← List.map_cons, classItems_lower]
        cases classItems b (c :: rest) with
        | none => rfl
        | some found => simp

theorem classUsed?_lower (b : UInt8) (cs : List UInt8) :
    classUsed? (lower b) (cs.map lower) = classUsed? b cs := by
  rw [classUsed?, classRest?_lower, classUsed?, Option.map_map]
  simp only [Function.comp_def, List.length_map]

/-! ### Places -/

namespace Place

/-- The place in the folded text. -/
def lowered (t : Place) : Place :=
  ⟨t.before.map lower, t.rest.map lower⟩

theorem startsWord_lowered (t : Place) : t.lowered.startsWord = t.startsWord := by
  obtain ⟨before, rest⟩ := t
  cases before with
  | none => rfl
  | some b => exact lower_beq (by decide)

theorem endsWord_lowered (t : Place) : t.lowered.endsWord = t.endsWord := by
  obtain ⟨before, rest⟩ := t
  cases rest with
  | nil => rfl
  | cons b rest => exact lower_beq (by decide)

theorem isEmpty_lowered (t : Place) : t.lowered.rest.isEmpty = t.rest.isEmpty :=
  List.isEmpty_map

theorem onward_lowered (before : Option UInt8) (rest : List UInt8) :
    onward (before.map lower) (rest.map lower) = (onward before rest).map lowered := by
  induction rest generalizing before with
  | nil => rfl
  | cons b rest ih => exact congrArg _ (ih (some b))

theorem withinWord_lowered (before : Option UInt8) (rest : List UInt8) :
    withinWord (before.map lower) (rest.map lower) = (withinWord before rest).map lowered := by
  induction rest generalizing before with
  | nil => rfl
  | cons b rest ih =>
      simp (disch := decide) only [List.map_cons, withinWord, lower_eq_iff]
      split
      · rfl
      · exact congrArg _ (ih (some b))

theorem wordEnd_lowered (before : Option UInt8) (rest : List UInt8) :
    wordEnd (before.map lower) (rest.map lower) = (wordEnd before rest).lowered := by
  induction rest generalizing before with
  | nil => rfl
  | cons b rest ih =>
      simp (disch := decide) only [List.map_cons, wordEnd, lower_eq_iff]
      split
      · rfl
      · exact ih (some b)

theorem eats_lowered {ok ok' : UInt8 → Bool} {next next' : Place → Bool}
    (hok : ∀ c, ok' (lower c) = ok c) (hnext : ∀ u : Place, next' u.lowered = next u) (t : Place) :
    t.lowered.eats ok' next' = t.eats ok next := by
  obtain ⟨before, rest⟩ := t
  cases rest with
  | nil => rfl
  | cons c rest => exact congrArg₂ (· && ·) (hok c) (hnext ⟨some c, rest⟩)

end Place

/-! ### The matcher -/

theorem skipStars_lower (inWord : Bool) (room : Nat) (pat : List UInt8) (t : Place) :
    skipStars inWord room (pat.map lower) t.lowered =
      (skipStars inWord room pat t).map fun (r, p, u) => (r, p.map lower, u.lowered) := by
  induction pat generalizing room t with
  | nil => cases room <;> rfl
  | cons b rest ih =>
      cases room with
      | zero => rfl
      | succ room =>
          simp (disch := decide) only [List.map_cons, skipStars, lower_eq_iff]
          split
          · exact ih room t
          split
          · obtain ⟨before, text⟩ := t
            cases text with
            | nil => rfl
            | cons c more =>
                simp (disch := decide) only [Place.lowered, List.map_cons, lower_beq]
                split
                · rfl
                · exact ih room ⟨some c, more⟩
          · rfl

theorem sameLetter_lower (b c : UInt8) :
    Ascii.sameLetter (lower b) (lower c) = Ascii.sameLetter b c := by
  rw [Ascii.sameLetter, lower_lower, lower_lower, Ascii.sameLetter]

theorem mayStart_lower (pat : List UInt8) (t : Place) :
    mayStart (pat.map lower) t.lowered = mayStart pat t := by
  obtain ⟨before, text⟩ := t
  cases pat with
  | nil => rfl
  | cons b more =>
      cases text with
      | nil =>
          have hbrace : Ascii.isLetter (byte '{') = false := by decide
          exact congrArg₂ (· && ·) (lower_beq hbrace) (Place.startsWord_lowered ⟨before, []⟩)
      | cons c text =>
          have hescaped : (more.map lower).headD (lower b) = lower (more.headD b) := by
            cases more <;> rfl
          have hstarts := Place.startsWord_lowered ⟨before, c :: text⟩
          simp (disch := decide) only [Place.lowered, List.map_cons, mayStart, lower_eq_iff,
            hescaped, sameLetter_lower] at hstarts ⊢
          rw [hstarts]

namespace Glyph

/-- The glyph in the folded pattern. -/
def lowered : Glyph → Glyph
  | bare b unescaped => bare (lower b) (by rwa [Ne, lower_eq_iff (by decide)])
  | escaped b => escaped (lower b)

theorem spelling_lowered (g : Glyph) : g.lowered.spelling = g.spelling.map lower := by
  cases g <;> rfl

theorem val_lowered (g : Glyph) : g.lowered.val = lower g.val := by
  cases g <;> rfl

theorem isBare_lowered {c : UInt8} (hc : Ascii.isLetter c = false) (g : Glyph) :
    g.lowered.isBare c = g.isBare c := by
  cases g with
  | bare b unescaped => exact lower_beq hc
  | escaped b => rfl

theorem isPlain_lowered (g : Glyph) : g.lowered.isPlain = g.isPlain := by
  simp (disch := decide) only [isPlain, isBare_lowered]

end Glyph

/-- The matcher, at all places, does with the folded pattern what it does with the pattern. -/
def Folds (pat : List UInt8) : Prop :=
  (∀ n word t, matchesAt n word (pat.map lower) (Place.lowered t) = matchesAt n word pat t) ∧
    ∀ n room t, anyAlternative n room (pat.map lower) (Place.lowered t) =
      anyAlternative n room pat t

section

variable {n : Nat} {word : Option Nat} {rest : List UInt8} {t : Place}

theorem matchesAt_star_lowered (hw : word ≠ some 0)
    (ih : ∀ p : List UInt8, p.length ≤ rest.length → Folds p) :
    matchesAt (n + 1) word (byte '*' :: rest.map lower) t.lowered =
      matchesAt (n + 1) word (byte '*' :: rest) t := by
  rw [Bool.eq_iff_iff]
  match word, hw with
  | none, _ =>
      rw [matchesAt_star, matchesAt_star, List.length_map, skipStars_lower]
      cases hk : skipStars false rest.length rest t with
      | none => simp
      | some skipped =>
          obtain ⟨r, p, u⟩ := skipped
          have hp := (ih p (skipStars_length hk)).1
          have hplaces : Place.onward u.lowered.before u.lowered.rest =
              (Place.onward u.before u.rest).map Place.lowered :=
            Place.onward_lowered u.before u.rest
          simp [hplaces, mayStart_lower, hp]
  | some (k + 1), _ =>
      rw [matchesAt_star_inWord, matchesAt_star_inWord, skipStars_lower]
      cases hk : skipStars true k rest t with
      | none => simp
      | some skipped =>
          obtain ⟨r, p, u⟩ := skipped
          have hp := (ih p (skipStars_length hk)).1
          have hplaces : Place.withinWord u.lowered.before u.lowered.rest =
              (Place.withinWord u.before u.rest).map Place.lowered :=
            Place.withinWord_lowered u.before u.rest
          simp [hplaces, hp]

theorem matchesAt_bracket_lowered (hw : word ≠ some 0)
    (ih : ∀ p : List UInt8, p.length ≤ rest.length → Folds p) :
    matchesAt (n + 1) word (byte '[' :: rest.map lower) t.lowered =
      matchesAt (n + 1) word (byte '[' :: rest) t := by
  rw [Bool.eq_iff_iff, matchesAt_bracket hw, matchesAt_bracket hw]
  obtain ⟨before, text⟩ := t
  cases text with
  | nil => simp [Place.lowered]
  | cons c text =>
      have hnext (used : Nat) (word : Option Nat) :
          matchesAt (n + 1) word ((rest.map lower).drop used) ⟨some (lower c), text.map lower⟩ =
            matchesAt (n + 1) word (rest.drop used) ⟨some c, text⟩ := by
        rw [← List.map_drop]
        refine (ih (rest.drop used) ?_).1 _ _ ⟨some c, text⟩
        rw [List.length_drop]
        exact Nat.sub_le _ _
      have hspace : (lower c == byte ' ') = (c == byte ' ') := lower_beq (by decide)
      simp only [Place.lowered, List.map_cons, List.cons.injEq]
      constructor
      · rintro ⟨_, _, used, ⟨rfl, rfl⟩, hs, hu, hm⟩
        rw [hspace] at hs
        rw [classUsed?_lower] at hu
        rw [hnext] at hm
        exact ⟨c, text, used, ⟨rfl, rfl⟩, hs, hu, hm⟩
      · rintro ⟨_, _, used, ⟨rfl, rfl⟩, hs, hu, hm⟩
        exact ⟨lower c, text.map lower, used, ⟨rfl, rfl⟩, by rwa [hspace],
          by rwa [classUsed?_lower], by rwa [hnext]⟩

theorem matchesAt_alternation_lowered
    (ih : ∀ p : List UInt8, p.length ≤ rest.length → Folds p) :
    matchesAt (n + 1) none (byte '{' :: rest.map lower) t.lowered =
      matchesAt (n + 1) none (byte '{' :: rest) t := by
  cases hc : findUnescaped? (byte '}') rest with
  | none =>
      have hc' : findUnescaped? (byte '}') (rest.map lower) = none := by
        rwa [findUnescaped?_lower (by decide)]
      rw [matchesAt_unclosed hc, matchesAt_unclosed hc']
  | some close =>
      have hc' : findUnescaped? (byte '}') (rest.map lower) = some close := by
        rwa [findUnescaped?_lower (by decide)]
      have hdrop : (rest.drop (close + 1)).length ≤ rest.length := by
        rw [List.length_drop]
        exact Nat.sub_le _ _
      rw [Bool.eq_iff_iff, matchesAt_alternation hc, matchesAt_alternation hc',
        Place.startsWord_lowered, (ih rest (Nat.le_refl _)).2, ← List.map_drop,
        ← (ih _ hdrop).1 _ _ (Place.wordEnd t.before t.rest), ← Place.wordEnd_lowered]
      rfl

/-- Every step goes on with a shorter pattern. -/
theorem matchesAt_lowered {pat : List UInt8}
    (ih : ∀ p : List UInt8, p.length < pat.length → Folds p) (n : Nat) (word : Option Nat)
    (t : Place) : matchesAt n word (pat.map lower) t.lowered = matchesAt n word pat t := by
  cases n with
  | zero => rw [matchesAt_zero, matchesAt_zero]
  | succ n =>
      by_cases hw : word = some 0
      · subst hw
        rw [matchesAt_ended, matchesAt_ended, Place.endsWord_lowered]
      obtain rfl | rfl | ⟨g, rest, rfl⟩ := exists_glyph pat
      · rw [List.map_nil, matchesAt_nil, matchesAt_nil, Place.endsWord_lowered,
          Place.isEmpty_lowered]
      · change matchesAt (n + 1) word [byte '\\'] t.lowered = _
        rw [matchesAt_dangling hw, matchesAt_dangling hw, Place.isEmpty_lowered]
      have hshort (p : List UInt8) (hp : p.length ≤ rest.length) : Folds p := by
        refine ih p (Nat.lt_of_le_of_lt hp ?_)
        rw [List.length_append]
        exact Nat.lt_add_of_pos_left (List.length_pos_iff.mpr g.spelling_ne_nil)
      obtain rfl | rfl | rfl | plain := g.eq_mark_or_isPlain
      · exact matchesAt_star_lowered hw hshort
      · change matchesAt (n + 1) word (byte '?' :: rest.map lower) t.lowered =
          matchesAt (n + 1) word (byte '?' :: rest) t
        rw [matchesAt_any hw, matchesAt_any hw]
        refine Place.eats_lowered (fun c => ?_) ((hshort rest (Nat.le_refl _)).1 _ _) t
        simp (disch := decide) only [lower_beq]
      · exact matchesAt_bracket_lowered hw hshort
      by_cases ho : g.isBare (byte '{') = true ∧ word = none
      · obtain ⟨ho, rfl⟩ := ho
        obtain rfl := eq_mark (by decide) ho
        exact matchesAt_alternation_lowered hshort
      · have hopen : g.isBare (byte '{') = true → word.isSome = true := fun hg =>
          Option.isSome_iff_ne_none.mpr fun hn => ho ⟨hg, hn⟩
        rw [List.map_append, ← g.spelling_lowered, matchesAt_glyph hw plain hopen,
          matchesAt_glyph hw (g.isPlain_lowered ▸ plain)
            (by rwa [g.isBare_lowered (by decide)]), g.spelling_lowered, List.length_map]
        refine Place.eats_lowered (fun c => ?_) ((hshort rest (Nat.le_refl _)).1 _ _) t
        rw [g.val_lowered, sameLetter_lower]

end

theorem folds (pat : List UInt8) : Folds pat := by
  induction hn : pat.length using Nat.strongRecOn generalizing pat with
  | ind m ih =>
      subst hn
      have hmatches := matchesAt_lowered fun p hp => ih p.length hp p rfl
      refine ⟨hmatches, fun n room t => ?_⟩
      have htake : findUnescaped? (byte '|') ((pat.map lower).take room) =
          findUnescaped? (byte '|') (pat.take room) := by
        rw [← List.map_take, findUnescaped?_lower (by decide)]
      cases hb : findUnescaped? (byte '|') (pat.take room) with
      | none => rw [anyAlternative_none hb, anyAlternative_none (htake.trans hb), hmatches]
      | some bar =>
          have hpos := pos_of_findUnescaped? hb
          have hlt : (pat.drop (bar + 1)).length < pat.length := by
            rw [List.length_take] at hpos
            rw [List.length_drop]
            omega
          rw [anyAlternative_some hb, anyAlternative_some (htake.trans hb), hmatches,
            ← List.map_drop, (ih _ hlt _ rfl).2]

/-! ### The validator -/

/-- The refusal of the folded pattern. -/
def Malformed.lowered : Malformed → Malformed
  | .beforeWord b => .beforeWord (lower b)
  | .afterWord b => .afterWord (lower b)
  | fault => fault

theorem mayPrecedeWord_lower (b : UInt8) : mayPrecedeWord (lower b) = mayPrecedeWord b := by
  simp (disch := decide) only [mayPrecedeWord, lower_beq]

theorem mayFollowWord_lower (b : UInt8) : mayFollowWord (lower b) = mayFollowWord b := by
  simp (disch := decide) only [mayFollowWord, lower_beq]

theorem filter_map_lower {ok : UInt8 → Bool} (h : ∀ b, ok (lower b) = ok b) (o : Option UInt8) :
    (o.map lower).filter (!ok ·) = (o.filter (!ok ·)).map lower := by
  cases o with
  | none => rfl
  | some b =>
      simp only [Option.map_some, Option.filter_some, h]
      split <;> rfl

section

variable {inWord : Bool} {before : Option UInt8} {rest : List UInt8}

theorem firstFault_bracket_lower
    (h : ∀ n before, firstFault inWord (before.map lower) ((rest.drop n).map lower) =
      (firstFault inWord before (rest.drop n)).map Malformed.lowered) :
    firstFault inWord (before.map lower) ((byte '[' :: rest).map lower) =
      (firstFault inWord before (byte '[' :: rest)).map Malformed.lowered := by
  have hmark : lower (byte '[') = byte '[' := by decide
  have hfind := findUnescaped?_lower (show Ascii.isLetter (byte ']') = false by decide)
    (byte '[' :: rest)
  rw [List.map_cons, hmark] at hfind ⊢
  rw [firstFault_bracket, firstFault_bracket, hfind]
  cases findUnescaped? (byte ']') (byte '[' :: rest) with
  | none => rfl
  | some n =>
      have hbefore : (byte '[' :: rest.map lower)[n]? = (byte '[' :: rest)[n]?.map lower := by
        rw [← List.getElem?_map, List.map_cons, hmark]
      dsimp only
      rw [hbefore, ← List.map_drop, h]

theorem firstFault_bare_lower {b : UInt8} (hb : b ≠ byte '\\') (hc : b ≠ byte '[')
    (h : ∀ inWord, firstFault inWord (some (lower b)) (rest.map lower) =
      (firstFault inWord (some b) rest).map Malformed.lowered) :
    firstFault inWord (before.map lower) ((b :: rest).map lower) =
      (firstFault inWord before (b :: rest)).map Malformed.lowered := by
  have hb' : lower b ≠ byte '\\' := by rwa [Ne, lower_eq_iff (by decide)]
  have hc' : lower b ≠ byte '[' := by rwa [Ne, lower_eq_iff (by decide)]
  rw [List.map_cons, firstFault_bare hb hc, firstFault_bare hb' hc', List.head?_map,
    filter_map_lower mayPrecedeWord_lower, filter_map_lower mayFollowWord_lower]
  simp (disch := decide) only [lower_eq_iff, h]
  split
  · split
    · rfl
    · cases before.filter (!mayPrecedeWord ·) <;> rfl
  split
  · cases rest.head?.filter (!mayFollowWord ·) <;> rfl
  split <;> rfl

end

theorem firstFault_lower (inWord : Bool) (before : Option UInt8) (cs : List UInt8) :
    firstFault inWord (before.map lower) (cs.map lower) =
      (firstFault inWord before cs).map Malformed.lowered := by
  induction hn : cs.length using Nat.strongRecOn generalizing inWord before cs with
  | ind n ih =>
      subst hn
      cases cs with
      | nil =>
          rw [List.map_nil, firstFault_nil, firstFault_nil]
          cases inWord <;> rfl
      | cons b rest =>
          have hdrop (n : Nat) (inWord : Bool) (before : Option UInt8) :
              firstFault inWord (before.map lower) ((rest.drop n).map lower) =
                (firstFault inWord before (rest.drop n)).map Malformed.lowered := by
            refine ih _ ?_ inWord before _ rfl
            rw [List.length_drop, List.length_cons]
            omega
          by_cases hb : b = byte '\\'
          · subst hb
            have hmark : lower (byte '\\') = byte '\\' := by decide
            rw [List.map_cons, hmark, firstFault_backslash, firstFault_backslash, List.head?_map,
              ← List.map_drop, hdrop]
          by_cases hc : b = byte '['
          · subst hc
            exact firstFault_bracket_lower fun n before => hdrop n inWord before
          · exact firstFault_bare_lower hb hc fun inWord => hdrop 0 inWord (some b)

theorem check_lower (pattern : List UInt8) :
    check (pattern.map lower) = (check pattern).map Malformed.lowered :=
  firstFault_lower false none pattern

/-! ### Texts -/

theorem toList_loop (bs : ByteArray) (i : Nat) (front : List UInt8) :
    ByteArray.toList.loop bs i front = front.reverse ++ bs.data.toList.drop i := by
  fun_induction ByteArray.toList.loop bs i front with
  | case1 i front h ih =>
      have hi : i < bs.data.toList.length := h
      have hget : bs.get! i = bs.data.toList[i] := getElem!_pos bs.data i h
      rw [ih, List.reverse_cons, List.append_assoc, List.drop_eq_getElem_cons hi, hget]
      rfl
  | case2 i front h =>
      have hi : bs.data.toList.length ≤ i := Nat.le_of_not_lt h
      rw [List.drop_eq_nil_of_le hi, List.append_nil]

theorem bytes_eq (s : String) : bytes s = s.toList.flatMap String.utf8EncodeChar := by
  rw [bytes, String.toUTF8, ByteArray.toList, toList_loop, ← String.utf8Encode_toList,
    List.utf8Encode, List.toList_data_toByteArray]
  rfl

theorem isUpper_iff {c : Char} : c.isUpper = true ↔ 65 ≤ c.toNat ∧ c.toNat ≤ 90 := by
  delta Char.isUpper
  simp [UInt32.le_iff_toNat_le]

theorem toNat_toLower {c : Char} (h : c.isUpper = true) : c.toLower.toNat = c.toNat + 32 := by
  have hle := (isUpper_iff.mp h).2
  delta Char.isUpper at h
  rw [decide_eq_true_eq] at h
  have hstep : ('a'.val - 'A'.val).toNat = 32 := by decide
  delta Char.toLower
  rw [dif_pos h, Char.toNat, UInt32.toNat_add, hstep, ← Char.toNat]
  exact Nat.mod_eq_of_lt (by omega)

theorem toLower_of_not_isUpper {c : Char} (h : ¬c.isUpper = true) : c.toLower = c := by
  delta Char.isUpper at h
  rw [decide_eq_true_eq] at h
  exact dif_neg h

theorem lower_of_le {b : UInt8} (h : ¬(65 ≤ b.toNat ∧ b.toNat ≤ 90)) : lower b = b := by
  rw [lower, if_neg]
  simpa only [UInt8.le_iff_toNat_le, UInt8.reduceToNat] using h

/-- The bytes of a character are folded as it is: a letter of ASCII is one byte, and other bytes are
no letters. -/
theorem utf8EncodeChar_lower (c : Char) :
    (String.utf8EncodeChar c).map lower = String.utf8EncodeChar c.toLower := by
  by_cases hc : c.isUpper = true
  · have hcode := isUpper_iff.mp hc
    have hlow := toNat_toLower hc
    have hbyte : 65 ≤ UInt8.ofNat c.toNat ∧ UInt8.ofNat c.toNat ≤ 90 := by
      simp only [UInt8.le_iff_toNat_le, UInt8.toNat_ofNat', UInt8.reduceToNat]
      omega
    rw [Text.utf8EncodeChar_ascii (by omega), Text.utf8EncodeChar_ascii (by omega), hlow,
      List.map_singleton, lower, if_pos hbyte, UInt8.ofNat_add]
    rfl
  · rw [toLower_of_not_isUpper hc]
    refine (List.map_congr_left fun b hb => ?_).trans (List.map_id _)
    refine lower_of_le ?_
    rw [isUpper_iff] at hc
    by_cases ha : c.toNat < 128
    · rw [Text.utf8EncodeChar_ascii ha, List.mem_singleton] at hb
      rw [hb, UInt8.toNat_ofNat', Nat.mod_eq_of_lt (by omega)]
      exact hc
    · have hmem : Text.ofByte b ∈ Text.bytes [c] := by
        simpa [Text.bytes] using ⟨b, hb, rfl⟩
      have hbyte := Text.isAscii_of_mem_bytes (decide_eq_false ha) hmem
      rw [Text.isAscii, Text.toNat_ofByte, decide_eq_false_iff_not] at hbyte
      omega

theorem bytes_lower (s : String) :
    (bytes s).map lower = (s.toList.map Char.toLower).flatMap String.utf8EncodeChar := by
  rw [bytes_eq, List.map_flatMap, List.flatMap_map]
  simp only [utf8EncodeChar_lower]

/-- Texts that differ in case only have the same folded bytes. -/
theorem bytes_of_sameWord {s t : String} (h : Ascii.sameWord s t = true) :
    (bytes s).map lower = (bytes t).map lower := by
  rw [bytes_lower, bytes_lower, eq_of_beq h]

/-- **Globs do not tell letters by their case**, in the pattern or in the text, whether the pattern
is accepted or not; and of two patterns that differ in case only both are accepted or none. -/
theorem matches_of_sameWord {p q s t : String} (hp : Ascii.sameWord p q = true)
    (ht : Ascii.sameWord s t = true) :
    matchesText p s = matchesText q t ∧ (malformed? p = none ↔ malformed? q = none) := by
  have hpattern := bytes_of_sameWord hp
  have htext := bytes_of_sameWord ht
  have hmatch (p s : String) :
      isMatch ((bytes p).map lower) ((bytes s).map lower) = matchesText p s :=
    (folds (bytes p)).1 budget none ⟨none, bytes s⟩
  have hcheck (p : String) : check ((bytes p).map lower) = none ↔ malformed? p = none := by
    rw [check_lower, Option.map_eq_none_iff, malformed?]
  refine ⟨?_, ?_⟩
  · rw [← hmatch, ← hmatch, hpattern, htext]
  · rw [← hcheck, ← hcheck, hpattern]

theorem matches_of_sameWord_inClass :
    (Ascii.sameWord "No[A-c]*" "nO[a-C]*" = true ∧ Ascii.sameWord "NOBX" "nobx" = true) ∧
      matchesText "No[A-c]*" "NOBX" = matchesText "nO[a-C]*" "nobx" ∧
        (malformed? "No[A-c]*" = none ↔ malformed? "nO[a-C]*" = none) :=
  ⟨by decide, matches_of_sameWord (by decide) (by decide)⟩

end ExprEngine.Glob
