import ExprEngine.Proofs.Pattern.Splits

/-!
# Alternations of globs

`{a|b}` matches one whole word that `a` or `b` matches, if the matcher finds the bars and the brace
where they are meant: it looks for them byte by byte and does not know that they may stand in a
class.
-/

namespace ExprEngine.Glob

open Glyph

/-- What may stand between bars and braces and mean there what it means alone. -/
structure IsAlternative (a : List UInt8) : Prop where
  accepted : check a = none
  ended : dangles a = false
  unbraced : ∀ ts, spelling ts = a → ∀ t ∈ ts, t.isBare (byte '{') = false
  few : ∀ ts, spelling ts = a → ts.count .star < 250
  unbarred : findUnescaped? (byte '|') a = none
  unclosed : findUnescaped? (byte '}') a = none

theorem isAlternative_spelling {ts : List Token} (hf : rowFault false none ts none = none)
    (hc : isOpenAfter false ts = false) (unbraced : ∀ t ∈ ts, t.isBare (byte '{') = false)
    (few : ts.count .star < 250)
    (hg : ∀ g ∈ glyphs ts, g.isBare (byte '|') = false ∧ g.isBare (byte '}') = false) :
    IsAlternative (spelling ts) where
  accepted := (check_spelling ts).mpr ⟨hf, hc⟩
  ended := (List.append_nil (spelling ts)) ▸ dangles_spelled (glyphs ts) []
  unbraced _ hu := spelling_injective hu ▸ unbraced
  few _ hu := spelling_injective hu ▸ few
  unbarred := (findUnescaped?_eq_none_iff (by decide)).mpr fun g h => (hg g h).1
  unclosed := (findUnescaped?_eq_none_iff (by decide)).mpr fun g h => (hg g h).2

/-- The alternatives with bars between them. -/
def joined (as : List (List UInt8)) : List UInt8 :=
  [byte '|'].intercalate as

@[simp] theorem joined_singleton (a : List UInt8) : joined [a] = a :=
  List.intercalate_singleton

@[simp] theorem joined_cons_cons (a b : List UInt8) (as : List (List UInt8)) :
    joined (a :: b :: as) = a ++ byte '|' :: joined (b :: as) := by
  rw [joined, List.intercalate_cons_cons, List.append_assoc]
  rfl

section

variable {a text : List UInt8} {as : List (List UInt8)} {n : Nat}

/-- Alternatives end where the matcher looks for the brace. -/
theorem joined_closes (h : ∀ a ∈ as, dangles a = false ∧ findUnescaped? (byte '}') a = none) :
    dangles (joined as) = false ∧ findUnescaped? (byte '}') (joined as) = none := by
  induction as with
  | nil => exact ⟨rfl, rfl⟩
  | cons a as ih =>
      obtain ⟨ha, has⟩ := List.forall_mem_cons.mp h
      cases as with
      | nil => rwa [joined_singleton]
      | cons b as =>
          rw [joined_cons_cons, dangles_append ha.1, findUnescaped?_append (by decide) ha.1 ha.2]
          have hd := dangles_spelling (mark '|' (by decide)) (joined (b :: as))
          have hf : findUnescaped? (byte '}') (byte '|' :: joined (b :: as)) =
              (findUnescaped? (byte '}') (joined (b :: as))).map (· + 1) :=
            findUnescaped?_spelling (by decide) (mark '|' (by decide)) _
          rw [spelling_mark, List.singleton_append] at hd
          rw [hd, hf, (ih has).2]
          exact ⟨(ih has).1, rfl⟩

/-- An alternative matches a text without spaces if it matches it alone. -/
theorem IsAlternative.matchesAt_iff (h : IsAlternative a) (hn : 250 ≤ n) (hs : byte ' ' ∉ text)
    (before : Option UInt8) (more : List UInt8) :
    matchesAt n (some a.length) (a ++ more) ⟨before, text⟩ = true ↔ isMatch a text = true := by
  obtain ⟨ts, rfl⟩ := exists_spelling h.accepted h.ended
  have hin : Agrees n true ts more := agrees (Nat.lt_of_lt_of_le (h.few ts rfl) hn) nofun
  have hout : Agrees budget false ts [] :=
    agrees (Nat.lt_of_lt_of_le (h.few ts rfl) (by decide)) fun _ => ⟨rfl, h.unbraced ts rfl⟩
  have hend (left : List UInt8) :
      Spans true ts text left ∧ Ends true left ↔ left = [] ∧ Spans true ts text [] := by
    constructor
    · rintro ⟨⟨taken, rfl, ht⟩, rfl | ⟨-, hl⟩⟩
      · exact ⟨rfl, taken, rfl, ht⟩
      · exact absurd (List.mem_append_right _ (List.mem_of_mem_head? hl)) hs
    · rintro ⟨rfl, ht⟩
      exact ⟨ht, .inl rfl⟩
  calc matchesAt n (some (spelling ts).length) (spelling ts ++ more) ⟨before, text⟩ = true
    _ ↔ ∃ left, Spans true ts text left ∧ Ends true left := hin ⟨before, text⟩
    _ ↔ Spans true ts text [] := by simp only [hend, exists_eq_left]
    _ ↔ Spans false ts text [] := by rw [spans_to_end, spans_to_end, splits_of_no_space hs]
    _ ↔ isMatch (spelling ts) text = true := (agrees_outside.mp hout ⟨none, text⟩).symm

/-- Where nothing follows an alternation, its word is all of the text. -/
theorem matchesAt_behind_word (before : Option UInt8) :
    matchesAt (n + 1) none [] (Place.wordEnd before text) = true ↔ byte ' ' ∉ text := by
  obtain ⟨hend, part, hp, htext, -⟩ := Place.wordEnd_spec before text
  rw [matchesAt_nil, Option.isSome_none, if_neg Bool.false_ne_true, List.isEmpty_iff]
  constructor
  · intro hnil
    rwa [htext, hnil, List.append_nil]
  · intro hs
    obtain hnil | hhead := Place.endsWord_iff.mp hend
    · exact hnil
    · refine absurd ?_ hs
      rw [htext]
      exact List.mem_append_right part (List.mem_of_mem_head? hhead)

/-- The matcher tries the alternatives one after the other. -/
theorem anyAlternative_joined (hne : as ≠ []) (h : ∀ a ∈ as, IsAlternative a) (hn : 250 ≤ n)
    (hs : byte ' ' ∉ text) (before : Option UInt8) (more : List UInt8) :
    anyAlternative n (joined as).length (joined as ++ more) ⟨before, text⟩ = true ↔
      ∃ a ∈ as, isMatch a text = true := by
  induction as with
  | nil => exact absurd rfl hne
  | cons a as ih =>
      obtain ⟨ha, has⟩ := List.forall_mem_cons.mp h
      cases as with
      | nil =>
          rw [joined_singleton, anyAlternative_last ha.unbarred, ha.matchesAt_iff hn hs]
          simp
      | cons b as =>
          rw [joined_cons_cons, List.append_assoc, List.cons_append, List.length_append,
            List.length_cons, anyAlternative_bar ha.ended ha.unbarred, Bool.or_eq_true,
            ha.matchesAt_iff hn hs, ih (List.cons_ne_nil b as) has]
          exact (List.exists_mem_cons_iff (isMatch · text = true) ..).symm

end

/-- **What an alternation means.**  Alone it matches the words that one of its alternatives
matches. -/
theorem isMatch_alternation {as : List (List UInt8)} (hne : as ≠ [])
    (h : ∀ a ∈ as, IsAlternative a) (text : List UInt8) :
    isMatch (byte '{' :: (joined as ++ [byte '}'])) text = true ↔
      byte ' ' ∉ text ∧ ∃ a ∈ as, isMatch a text = true := by
  obtain ⟨hd, hf⟩ := joined_closes fun a ha => ⟨(h a ha).ended, (h a ha).unclosed⟩
  have hclose : findUnescaped? (byte '}') (joined as ++ [byte '}']) = some (joined as).length := by
    rw [findUnescaped?_append (by decide) hd hf, findUnescaped?_self (by decide), Option.map_some,
      Nat.zero_add]
  have hdrop : (joined as ++ [byte '}']).drop ((joined as).length + 1) = [] := by simp
  rw [isMatch, matchesAt_alternation hclose, hdrop, matchesAt_behind_word]
  constructor
  · rintro ⟨-, hany, hs⟩
    exact ⟨hs, (anyAlternative_joined hne h (by decide) hs none _).mp hany⟩
  · rintro ⟨hs, hany⟩
    exact ⟨rfl, (anyAlternative_joined hne h (by decide) hs none _).mpr hany, hs⟩

/-- The pattern `{n*h|s[n-p]*}` on a word. -/
theorem isMatch_alternation_of_directions :
    let as := [['n', '*', 'h'].map byte, ['s', '[', 'n', '-', 'p', ']', '*'].map byte]
    let text := ['S', 'o', 'u', 't', 'h'].map byte
    (as ≠ [] ∧ ∀ a ∈ as, IsAlternative a) ∧
      isMatch (['{', 'n', '*', 'h', '|', 's', '[', 'n', '-', 'p', ']', '*', '}'].map byte) text =
        true := by
  intro as text
  let north : List Token := [.lit (mark 'n' (by decide)) (by decide), .star,
    .lit (mark 'h' (by decide)) (by decide)]
  let south : List Token := [.lit (mark 's' (by decide)) (by decide),
    .ofClass [mark 'n' (by decide), mark '-' (by decide), mark 'p' (by decide)] (by decide), .star]
  have hnorth : IsAlternative (spelling north) :=
    isAlternative_spelling (by decide) (by decide) (by decide) (by decide) (by decide)
  have hsouth : IsAlternative (spelling south) :=
    isAlternative_spelling (by decide) (by decide) (by decide) (by decide) (by decide)
  have h : ∀ a ∈ as, IsAlternative a :=
    List.forall_mem_cons.mpr ⟨hnorth, List.forall_mem_cons.mpr ⟨hsouth, nofun⟩⟩
  refine ⟨⟨List.cons_ne_nil _ _, h⟩, (isMatch_alternation (List.cons_ne_nil _ _) h text).mpr ?_⟩
  exact ⟨by decide, _, List.mem_cons_of_mem _ List.mem_cons_self, by decide +kernel⟩

/-- The brace in the class of `{[}]}` ends the alternation. -/
theorem class_of_brace_in_alternation :
    check (['[', '}', ']'].map byte) = none ∧ dangles (['[', '}', ']'].map byte) = false ∧
      check (['{', '[', '}', ']', '}'].map byte) = none ∧
      isMatch (['[', '}', ']'].map byte) [byte '}'] = true ∧
      isMatch (['{', '[', '}', ']', '}'].map byte) [byte '}'] = false := by
  decide +kernel

end ExprEngine.Glob
