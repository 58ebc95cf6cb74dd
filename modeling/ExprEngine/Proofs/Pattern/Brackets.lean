import ExprEngine.Proofs.Pattern.Faults
import Mathlib.Algebra.Group.Nat.Even
import Mathlib.Data.Nat.Find
import Mathlib.Order.Bounds.Image

/-!
# Where classes end

A bracket closes a class unless a backslash escapes it, and a backslash escapes what follows it
unless it is escaped itself.  So the bytes that stand bare in a text are those with an even number
of backslashes right before them.

* `findUnescaped?_eq_some_iff`: a search finds the least index of a bare byte.
* `exists_of_classItems`: what the reader of a class passes is a row of glyphs.
* `class_ends_alike`: the class that follows a `[` ends at its first bare bracket, for the matcher
  and for the validator, and a `^` in front of it turns it around.
-/

namespace ExprEngine.Glob

open Glyph

variable {needle b lo : UInt8} {cs rest : List UInt8} {n : ℕ}

/-! ### Bare bytes -/

/-- Number of backslashes right before an index. -/
def backslashesBefore (cs : List UInt8) (i : ℕ) : ℕ :=
  ((cs.take i).reverse.takeWhile (· == byte '\\')).length

/-- The indices at which the byte stands and no backslash escapes it. -/
def bareAt (needle : UInt8) (cs : List UInt8) : Set ℕ :=
  {i | cs[i]? = some needle ∧ Even (backslashesBefore cs i)}

theorem even_backslashes_spelling (g : Glyph) :
    Even (g.spelling.reverse.takeWhile (· == byte '\\')).length := by
  cases g with
  | bare b hb => simp [Glyph.spelling, hb]
  | escaped b =>
      by_cases hb : b = byte '\\'
      · exact ⟨1, by rw [hb]; rfl⟩
      · simp [Glyph.spelling, hb]

theorem even_backslashesBefore (g : Glyph) (cs : List UInt8) (i : ℕ) :
    Even (backslashesBefore (g.spelling ++ cs) (g.spelling.length + i)) ↔
      Even (backslashesBefore cs i) := by
  rw [backslashesBefore, backslashesBefore, List.take_length_add_append, List.reverse_append,
    List.takeWhile_append]
  split
  · next hall => rw [List.length_append, Nat.even_add, ← hall,
      iff_true_right (even_backslashes_spelling g)]
  · rfl

theorem add_mem_bareAt (g : Glyph) (cs : List UInt8) (i : ℕ) :
    g.spelling.length + i ∈ bareAt needle (g.spelling ++ cs) ↔ i ∈ bareAt needle cs := by
  refine and_congr ?_ (even_backslashesBefore g cs i)
  rw [List.getElem?_append_right (Nat.le_add_right _ _), Nat.add_sub_cancel_left]

theorem zero_mem_bareAt : 0 ∈ bareAt needle cs ↔ cs.head? = some needle := by
  rw [bareAt, Set.mem_ofPred_eq, List.head?_eq_getElem?]
  exact and_iff_left Even.zero

/-- Inside the spelling of a glyph no byte is bare but the one that it is. -/
theorem zero_of_mem_bareAt {g : Glyph} {i : ℕ} (h : i ∈ bareAt needle (g.spelling ++ cs))
    (hi : i < g.spelling.length) : i = 0 := by
  cases g with
  | bare b hb => exact Nat.lt_one_iff.mp hi
  | escaped b =>
      match i, hi with
      | 0, _ => rfl
      | 1, _ =>
        have hodd : backslashesBefore (byte '\\' :: b :: cs) 1 = 1 := rfl
        exact absurd (hodd ▸ h.2) Nat.not_even_one

theorem bareAt_spelling {g : Glyph} (hn : needle ≠ byte '\\') (hg : g.isBare needle = false)
    (cs : List UInt8) :
    bareAt needle (g.spelling ++ cs) = (g.spelling.length + ·) '' bareAt needle cs := by
  ext i
  constructor
  · intro h
    have hle : g.spelling.length ≤ i := by
      by_contra hlt
      obtain rfl := zero_of_mem_bareAt h (Nat.lt_of_not_le hlt)
      rw [zero_mem_bareAt, head?_spelling hn, hg] at h
      cases h
    obtain ⟨k, rfl⟩ := Nat.exists_eq_add_of_le hle
    exact ⟨k, (add_mem_bareAt g cs k).mp h, rfl⟩
  · rintro ⟨k, hk, rfl⟩
    exact (add_mem_bareAt g cs k).mpr hk

/-- A search finds the least index of a bare byte. -/
theorem findUnescaped?_eq_some_iff (hn : needle ≠ byte '\\') :
    findUnescaped? needle cs = some n ↔ IsLeast (bareAt needle cs) n := by
  induction cs using glyph_induction generalizing n with
  | nil => exact iff_of_false nofun fun h => nomatch h.1.1
  | dangling =>
      refine iff_of_false (by simp [findUnescaped?]) fun h => ?_
      have hlt := (List.getElem?_eq_some_iff.mp h.1.1).1
      obtain rfl : n = 0 := Nat.lt_one_iff.mp hlt
      exact hn (Option.some.inj (zero_mem_bareAt.mp h.1)).symm
  | glyph g rest ih =>
      rw [findUnescaped?_spelling hn]
      cases hg : g.isBare needle with
      | true =>
          have hz : IsLeast (bareAt needle (g.spelling ++ rest)) 0 :=
            ⟨zero_mem_bareAt.mpr ((head?_spelling hn g rest).mpr hg), fun _ _ => Nat.zero_le _⟩
          rw [if_pos rfl, Option.some.injEq]
          exact ⟨fun h => h ▸ hz, hz.unique⟩
      | false =>
          rw [if_neg Bool.false_ne_true, bareAt_spelling hn hg, Option.map_eq_some_iff]
          constructor
          · rintro ⟨k, hk, rfl⟩
            rw [Nat.add_comm]
            exact Monotone.map_isLeast (fun _ _ h => Nat.add_le_add_left h _) (ih.mp hk)
          · rintro ⟨⟨k, hk, rfl⟩, hlow⟩
            refine ⟨k, ih.mpr ⟨hk, fun j hj => ?_⟩, Nat.add_comm _ _⟩
            exact Nat.le_of_add_le_add_left (hlow (Set.mem_image_of_mem _ hj))

theorem bareAt_eq_empty (hn : needle ≠ byte '\\') (h : findUnescaped? needle cs = none) :
    bareAt needle cs = ∅ := by
  classical
  refine Set.eq_empty_of_forall_notMem fun i hi => ?_
  have hex : ∃ i, i ∈ bareAt needle cs := ⟨i, hi⟩
  have hleast : IsLeast (bareAt needle cs) (Nat.find hex) :=
    ⟨Nat.find_spec hex, fun _ hj => Nat.find_min' hex hj⟩
  rw [(findUnescaped?_eq_some_iff hn).mpr hleast] at h
  cases h

/-! ### Unclosed classes -/

theorem exists_of_classByte (h : classByte cs = some (lo, rest)) :
    ∃ g : Glyph, cs = g.spelling ++ rest := by
  obtain rfl | rfl | ⟨g, more, rfl⟩ := exists_glyph cs
  · cases h
  · cases h
  · rw [classByte_spelling] at h
    cases h
    exact ⟨g, rfl⟩

theorem exists_of_rangeEnd {hi : Option UInt8} (h : rangeEnd cs = some (hi, rest)) :
    ∃ gs, cs = spelled gs ++ rest := by
  unfold rangeEnd at h
  split at h
  · split at h
    · next d e more hd =>
      obtain ⟨⟨v, r⟩, hv, he⟩ := Option.map_eq_some_iff.mp h
      obtain ⟨g, hg⟩ := exists_of_classByte hv
      cases he
      exact ⟨[mark '-' (by decide), g], by rw [hd.1, hg]; simp⟩
    · cases h
      exact ⟨[], rfl⟩
  · cases h
    exact ⟨[], rfl⟩

/-- What the reader of a class passes is a row of glyphs. -/
theorem exists_of_classItems {hit : Bool} (h : classItems b cs = some (hit, rest)) :
    ∃ gs, cs = spelled gs ++ byte ']' :: rest := by
  induction hn : cs.length using Nat.strongRecOn generalizing cs hit with
  | ind n ih =>
      subst hn
      match cs with
      | [] => simp [classItems] at h
      | c :: cs =>
        by_cases hc : c = byte ']'
        · rw [hc, classItems_end] at h
          cases h
          exact ⟨[], hc ▸ rfl⟩
        · rw [classItems_cons hc] at h
          obtain ⟨⟨lo, cs₁⟩, h₁, h⟩ := Option.bind_eq_some_iff.mp h
          obtain ⟨⟨hi, cs₂⟩, h₂, h⟩ := Option.bind_eq_some_iff.mp h
          obtain ⟨⟨hit, more⟩, h₃, he⟩ := Option.map_eq_some_iff.mp h
          cases he
          have hlt := (rangeEnd_length h₂).trans_lt (classByte_length h₁)
          obtain ⟨g, hg⟩ := exists_of_classByte h₁
          obtain ⟨gs, rfl⟩ := exists_of_rangeEnd h₂
          obtain ⟨hs, rfl⟩ := ih _ hlt h₃ rfl
          exact ⟨g :: gs ++ hs, by rw [hg]; simp⟩

theorem findUnescaped?_ne_none (hn : needle ≠ byte '\\') (gs : List Glyph) (rest : List UInt8) :
    findUnescaped? needle (spelled gs ++ needle :: rest) ≠ none := by
  induction gs with
  | nil =>
      rw [spelled_nil, List.nil_append, findUnescaped?_self hn]
      nofun
  | cons g gs ih =>
      rw [spelled_cons, List.append_assoc, findUnescaped?_spelling hn]
      split
      · nofun
      · rwa [Ne, Option.map_eq_none_iff]

theorem classItems_unclosed (b : UInt8) (h : findUnescaped? (byte ']') cs = none) :
    classItems b cs = none := by
  cases hc : classItems b cs with
  | none => rfl
  | some found =>
      obtain ⟨gs, rfl⟩ := exists_of_classItems hc
      exact absurd h (findUnescaped?_ne_none (by decide) gs _)

theorem findUnescaped?_mark {c : Char} (hc : byte c ≠ byte '\\') (hne : byte c ≠ needle)
    (hn : needle ≠ byte '\\') (cs : List UInt8) :
    findUnescaped? needle (byte c :: cs) = (findUnescaped? needle cs).map (· + 1) := by
  have h := findUnescaped?_spelling hn (mark c hc) cs
  rwa [spelling_mark, show (mark c hc).isBare needle = false from beq_false_of_ne hne,
    if_neg Bool.false_ne_true] at h

theorem classUsed?_unclosed (b : UInt8) (h : findUnescaped? (byte ']') cs = none) :
    classUsed? b cs = none := by
  rw [classUsed?, Option.map_eq_none_iff]
  cases cs with
  | nil => simp [classRest?, classItems_unclosed b h]
  | cons c cs =>
      by_cases hc : c = byte '^'
      · rw [hc, findUnescaped?_mark (by decide) (by decide) (by decide),
          Option.map_eq_none_iff] at h
        simp [classRest?, hc, classItems_unclosed b h]
      · simp [classRest?, hc, classItems_unclosed b h]

/-! ### Closed classes -/

/-- A `^` in front of a class turns it around. -/
theorem inClass_caret {body : List Glyph} (h : ∀ g ∈ body.head?, g.isBare (byte '^') = false)
    (b : UInt8) : inClass (mark '^' (by decide) :: body) b = !inClass body b := by
  have hcaret : (mark '^' (by decide)).isBare (byte '^') = true := rfl
  rw [inClass, if_pos hcaret]
  cases body with
  | nil => rfl
  | cons g body => rw [inClass, h g rfl, if_neg Bool.false_ne_true]

/-- The class that follows a `[` ends at its first bare bracket, for the matcher and for the
validator, and a `^` in front of it turns it around.  Without such a bracket the matcher takes no
byte and the validator refuses the pattern. -/
theorem class_ends_alike (b : UInt8) (cs : List UInt8) :
    (∃ n, IsLeast (bareAt (byte ']') cs) n ∧
      findUnescaped? (byte ']') (byte '[' :: cs) = some (n + 1) ∧
      (∀ inWord before, firstFault inWord before (byte '[' :: cs) =
        firstFault inWord (some (byte ']')) (cs.drop (n + 1))) ∧
      (classUsed? b cs = none ∨ classUsed? b cs = some (n + 1)) ∧
      (cs.head? = some (byte '^') ∨
        (classUsed? b (byte '^' :: cs)).isSome = !(classUsed? b cs).isSome)) ∨
    (bareAt (byte ']') cs = ∅ ∧ findUnescaped? (byte ']') (byte '[' :: cs) = none ∧
      (∀ inWord before, firstFault inWord before (byte '[' :: cs) = some .unclosedClass) ∧
      classUsed? b cs = none) := by
  have hopen := findUnescaped?_mark (c := '[') (by decide) (by decide)
    (show byte ']' ≠ byte '\\' by decide) cs
  cases hf : findUnescaped? (byte ']') cs with
  | none =>
      rw [hf, Option.map_none] at hopen
      refine .inr ⟨bareAt_eq_empty (by decide) hf, hopen, fun inWord before => ?_,
        classUsed?_unclosed b hf⟩
      rw [firstFault_bracket, hopen]
  | some n =>
      rw [hf, Option.map_some] at hopen
      obtain ⟨body, rest, closed, rfl⟩ := exists_of_findUnescaped? (by decide) hf
      obtain rfl : (spelled body).length = n :=
        Option.some.inj ((findUnescaped?_first (by decide) closed rest).symm.trans hf)
      refine .inl ⟨_, (findUnescaped?_eq_some_iff (by decide)).mp hf, hopen,
        fun inWord before => ?_, ?_, ?_⟩
      · rw [firstFault_class closed]
        simp
      · rw [classUsed?_spelled b closed]
        split
        · exact .inr rfl
        · exact .inl rfl
      · by_cases hc : (spelled body ++ byte ']' :: rest).head? = some (byte '^')
        · exact .inl hc
        · have hcaret : ∀ g ∈ mark '^' (by decide) :: body, g.isBare (byte ']') = false :=
            List.forall_mem_cons.mpr ⟨by decide, closed⟩
          have hbody : ∀ g ∈ body.head?, g.isBare (byte '^') = false := by
            rintro g hg
            obtain ⟨more, rfl⟩ := List.head?_eq_some_iff.mp hg
            rw [spelled_cons, List.append_assoc, head?_spelling (by decide),
              Bool.not_eq_true] at hc
            exact hc
          have hturned := classUsed?_spelled b hcaret rest
          rw [spelled_cons, spelling_mark, List.singleton_append, List.cons_append] at hturned
          rw [hturned, inClass_caret hbody, classUsed?_spelled b closed]
          cases inClass body b
          · exact .inr rfl
          · exact .inr rfl

end ExprEngine.Glob
